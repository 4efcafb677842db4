import Formula.Proofs.Computation
import Formula.Proofs.Double
import Formula.Symbol

/-!
# Left-to-right evaluation

`Expr.eval` is the value of an expression by itself, without code: operands are evaluated from left
to right, arguments before the call, and a sequence has the value of its second expression. What a
variable holds and what a call does is up to a `World`, which may keep track of both in its state.
`Arithmetic` says what literals, signs and operations are on the values: `Arithmetic.float` computes
with doubles, `Arithmetic.word` with their bit patterns. `eval_word` relates the two.

`Expr.references` lists the names that an expression needs, in the same order.
-/

namespace Formula

/-! ## References -/

/-- A use of a name: of a variable, or of a function with so many arguments. -/
inductive Reference where
  | var (name : String)
  | call (signature : Signature)
deriving DecidableEq

/-- The symbol that stands for a name in code. -/
def Reference.symbol : Reference → Symbol
  | var name => .ofVar name
  | call signature => .ofSignature signature

namespace Expr

mutual

/-- The names that an expression needs, in order of evaluation. -/
def references : Expr → List Reference
  | .number _ _ => []
  | .var _ name => [.var name]
  | .call _ name args => referencesAll args ++ [.call ⟨name, args.length⟩]
  | .unary _ _ operand => operand.references
  | .binary _ _ left right => left.references ++ right.references
  | .sequence _ first second => first.references ++ second.references

/-- The names that several expressions need. -/
def referencesAll : List Expr → List Reference
  | [] => []
  | e :: es => e.references ++ referencesAll es

end

mutual

/-- Whether every call has at most so many arguments. -/
def CallsWithin (limit : Nat) : Expr → Prop
  | .number _ _ => True
  | .var _ _ => True
  | .call _ _ args => args.length ≤ limit ∧ CallsWithinAll limit args
  | .unary _ _ operand => operand.CallsWithin limit
  | .binary _ _ left right => left.CallsWithin limit ∧ right.CallsWithin limit
  | .sequence _ first second => first.CallsWithin limit ∧ second.CallsWithin limit

/-- The same of several expressions. -/
def CallsWithinAll (limit : Nat) : List Expr → Prop
  | [] => True
  | e :: es => e.CallsWithin limit ∧ CallsWithinAll limit es

end

end Expr

/-! ## Values -/

/-- What expressions compute with. -/
structure Arithmetic (α : Type) where
  number : Double → α
  unary : UnaryOp → α → α
  binary : BinaryOp → α → α → α

namespace Arithmetic

/-- Doubles. -/
def float : Arithmetic Float where
  number := Double.toFloat
  unary := UnaryOp.apply
  binary := BinaryOp.apply

/-- Bit patterns of doubles. A minus sign inverts the sign bit. -/
def word : Arithmetic UInt64 where
  number := Double.bits
  unary
    | .neg, w => w ^^^ Native.signBit
    | .plus, w => w
  binary op v w := (op.apply (Float.ofBits v) (Float.ofBits w)).toBits

theorem ofBits_unary (op : UnaryOp) (w : UInt64) :
    Float.ofBits (word.unary op w) = float.unary op (Float.ofBits w) := by
  cases op with
  | neg => exact Double.ofBits_xor_signBit w
  | plus => rfl

theorem ofBits_binary (op : BinaryOp) (v w : UInt64) :
    Float.ofBits (word.binary op v w) = float.binary op (Float.ofBits v) (Float.ofBits w) :=
  Float.ofBits_toBits _

end Arithmetic

/-- What names stand for, with effects on a state `σ`. -/
structure World (σ α : Type) where
  /-- Reads a variable. -/
  read : String → StateM σ α
  /-- Calls a function with that many arguments. -/
  call : Signature → List α → StateM σ α

namespace Expr

variable {σ α : Type}

mutual

/-- The value of an expression. -/
def eval (ops : Arithmetic α) (world : World σ α) : Expr → StateM σ α
  | .number _ value => pure (ops.number value)
  | .var _ name => world.read name
  | .call _ name args => do
    let values ← evalAll ops world args
    world.call ⟨name, args.length⟩ values
  | .unary _ op operand => do
    let value ← operand.eval ops world
    return ops.unary op value
  | .binary _ op left right => do
    let leftValue ← left.eval ops world
    let rightValue ← right.eval ops world
    return ops.binary op leftValue rightValue
  | .sequence _ first second => do
    let _ ← first.eval ops world
    second.eval ops world

/-- The values of several expressions. -/
def evalAll (ops : Arithmetic α) (world : World σ α) : List Expr → StateM σ (List α)
  | [] => pure []
  | e :: es => do
    let value ← e.eval ops world
    let values ← evalAll ops world es
    return value :: values

end

theorem length_evalAll (ops : Arithmetic α) (world : World σ α) (es : List Expr) (s : σ) :
    (evalAll ops world es s).1.length = es.length := by
  induction es generalizing s with
  | nil => rfl
  | cons e es ih =>
    rw [evalAll]
    exact congrArg (· + 1) (ih _)

end Expr

/-! ## Bit patterns stand for values -/

/-- A world of bit patterns that gives, for some names, the patterns of the values that a world of
doubles gives. -/
structure World.Encodes {σ : Type} (words : World σ UInt64) (floats : World σ Float)
    (names : List Reference) : Prop where
  read : ∀ name, .var name ∈ names → ∀ s,
    (Float.ofBits <$> words.read name) s = floats.read name s
  call : ∀ signature, .call signature ∈ names → ∀ args s,
    (Float.ofBits <$> words.call signature args) s =
      floats.call signature (args.map Float.ofBits) s

namespace World.Encodes

variable {σ : Type} {words : World σ UInt64} {floats : World σ Float} {names more : List Reference}

theorem left (h : words.Encodes floats (names ++ more)) : words.Encodes floats names :=
  ⟨fun name hName => h.read name (List.mem_append_left _ hName),
    fun signature hName => h.call signature (List.mem_append_left _ hName)⟩

theorem right (h : words.Encodes floats (names ++ more)) : words.Encodes floats more :=
  ⟨fun name hName => h.read name (List.mem_append_right _ hName),
    fun signature hName => h.call signature (List.mem_append_right _ hName)⟩

end World.Encodes

namespace Expr

variable {σ : Type} {words : World σ UInt64} {floats : World σ Float}

mutual

/-- Evaluation with bit patterns gives the pattern of the value. -/
theorem eval_word : ∀ (e : Expr), words.Encodes floats e.references → ∀ s,
    (Float.ofBits <$> e.eval .word words) s = e.eval .float floats s
  | .number _ _, _, _ => rfl
  | .var _ name, h, s => h.read name (List.mem_singleton.mpr rfl) s
  | .call _ name args, h, s => by
    have hArgs := evalAll_word args h.left s
    rw [StateM.map_apply, Prod.ext_iff] at hArgs
    simp only [eval, StateM.map_apply, StateM.bind_apply]
    rw [← hArgs.1, ← hArgs.2]
    exact h.right.call _ (List.mem_singleton.mpr rfl) _ _
  | .unary _ op operand, h, s => by
    have hOperand := eval_word operand h s
    rw [StateM.map_apply, Prod.ext_iff] at hOperand
    simp only [eval, StateM.map_apply, StateM.bind_apply, StateM.pure_apply]
    rw [← hOperand.1, ← hOperand.2, Arithmetic.ofBits_unary]
  | .binary _ op left right, h, s => by
    have hLeft := eval_word left h.left s
    have hRight := eval_word right h.right (left.eval .word words s).2
    rw [StateM.map_apply, Prod.ext_iff] at hLeft hRight
    simp only [eval, StateM.map_apply, StateM.bind_apply, StateM.pure_apply]
    rw [← hLeft.1, ← hLeft.2, ← hRight.1, ← hRight.2, Arithmetic.ofBits_binary]
  | .sequence _ first second, h, s => by
    have hFirst := eval_word first h.left s
    rw [StateM.map_apply, Prod.ext_iff] at hFirst
    simp only [eval, StateM.bind_apply]
    rw [← hFirst.2]
    exact eval_word second h.right _

theorem evalAll_word : ∀ (es : List Expr), words.Encodes floats (referencesAll es) → ∀ s,
    (List.map Float.ofBits <$> evalAll .word words es) s = evalAll .float floats es s
  | [], _, _ => rfl
  | e :: es, h, s => by
    have hHead := eval_word e h.left s
    have hTail := evalAll_word es h.right (e.eval .word words s).2
    rw [StateM.map_apply, Prod.ext_iff] at hHead hTail
    simp only [evalAll, StateM.map_apply, StateM.bind_apply, StateM.pure_apply]
    rw [← hHead.1, ← hHead.2, ← hTail.1, ← hTail.2]
    rfl

end

end Expr

end Formula
