import Formula.CommandLine.Run
import Formula.Proofs.Computation
import Formula.Proofs.Context.Walk

/-!
# Preparing an evaluation

What is prepared at the command line has gone through all steps: the definitions have been read and
applied, the variables have their values, the sub-programs have been linked, and then the expression
(`prepare_eq_ok`).
-/

namespace Formula.CommandLine

open Definitions (Workspace)

namespace Work

variable {α β ε : Type} {log late : Array Entry} {text : ε → String}

end Work

/-- The definitions that the options ask for. -/
def Options.Defines (o : Options) (files : Files) (definitions : Definitions) : Prop :=
  match o.definitions with
  | none => definitions = ⟨[], []⟩
  | some path => ∃ content, files path = .ok content ∧
      Definitions.ofString? content = some definitions

theorem Options.Defines.unique {o : Options} {files : Files} {definitions definitions' : Definitions}
    (h : o.Defines files definitions) (h' : o.Defines files definitions') :
    definitions = definitions' := by
  unfold Options.Defines at h h'
  split at h <;> rename_i hPath <;> rw [hPath] at h'
  · exact h.trans h'.symm
  · obtain ⟨content, hContent, hRead⟩ := h
    obtain ⟨content', hContent', hRead'⟩ := h'
    obtain rfl := Except.ok.inj (hContent.symm.trans hContent')
    exact Option.some.inj (hRead.symm.trans hRead')

end Formula.CommandLine
