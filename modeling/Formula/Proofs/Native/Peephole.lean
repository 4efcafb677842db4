import Formula.Proofs.Native.Execution
import Formula.Proofs.Native.Liveness

/-!
# The peephole pass

In generated code each instruction that reads `rax` comes right after one that writes it (`Fed`),
and the pass keeps code that way (`fed_pass`). So `rax` is dead wherever the pass drops a move of a
register to `rax` and back (`Fed.dropsDead`), and runs of such code before and after the passes
differ in `rax` at most (`run_optimize_fed`).
-/

namespace Formula.Native

/-- Each instruction that reads `rax` comes right after one that writes it; the first one may do so
only if `rax` is `fresh` on entry. -/
def Fed (fresh : Bool) : List Inst → Prop
  | [] => True
  | i :: rest => (i.readsRax → fresh) ∧ Fed i.writesRax rest

theorem Fed.mono {fresh : Bool} {code : List Inst} (h : Fed false code) : Fed fresh code := by
  cases code with
  | nil => trivial
  | cons i rest => exact ⟨fun hReads => absurd (h.1 hReads) Bool.false_ne_true, h.2⟩

/-! ## Generated code -/

/-- Code after which `rax` is not read. -/
def Feeds (code : List Inst) : Prop :=
  ∀ rest, Fed false rest → Fed false (code ++ rest)

namespace Feeds

theorem nil : Feeds [] :=
  fun _ h => h

theorem append {code₁ code₂ : List Inst} (h₁ : Feeds code₁) (h₂ : Feeds code₂) :
    Feeds (code₁ ++ code₂) := by
  intro rest hRest
  rw [List.append_assoc]
  exact h₁ _ (h₂ _ hRest)

theorem fed {code : List Inst} (h : Feeds code) : Fed false code :=
  List.append_nil code ▸ h [] trivial

theorem single {i : Inst} (hReads : i.readsRax = false) : Feeds [i] := by
  intro rest hRest
  refine ⟨fun hRead => ?_, hRest.mono⟩
  rw [hReads] at hRead
  cases hRead

/-- What the second instruction may read has been written by the first. -/
theorem pair {i j : Inst} (hReads : i.readsRax = false) (hWrites : i.writesRax = true) :
    Feeds [i, j] := by
  intro rest hRest
  refine ⟨fun hRead => ?_, fun _ => hWrites, hRest.mono⟩
  rw [hReads] at hRead
  cases hRead

end Feeds

theorem feeds_pops (count : Nat) : Feeds (pops count) := by
  induction count with
  | zero => exact .nil
  | succ count ih => exact (Feeds.pair rfl rfl).append ih

theorem feeds_callSymbol (id : SymbolId) : Feeds (callSymbol id) :=
  (Feeds.single rfl).append (.pair rfl rfl)

theorem feeds_alignedCall (depth : Nat) (id : SymbolId) : Feeds (alignedCall depth id) := by
  unfold alignedCall
  split_ifs
  · exact (Feeds.single rfl).append ((feeds_callSymbol id).append (.single rfl))
  · exact feeds_callSymbol id

theorem feeds_pushResult : Feeds pushResult :=
  .pair rfl rfl

theorem feeds_ofBinary (op : BinaryOp) : Feeds [.ofBinary op] := by
  cases op <;> exact .single rfl

theorem feeds_ret : Feeds [.ret] :=
  .single rfl

mutual

theorem feeds_lower (number : Symbol → SymbolId) (depth : Nat) :
    ∀ e : Expr, Feeds (lower number depth e)
  | .number _ _ => .pair rfl rfl
  | .var _ _ => .pair rfl rfl
  | .call _ _ args =>
    (feeds_lowerAll number depth args).append ((feeds_pops _).append
      ((feeds_alignedCall depth _).append feeds_pushResult))
  | .unary _ .neg operand =>
    (feeds_lower number depth operand).append ((feeds_pops 1).append
      (((Feeds.pair rfl rfl).append (.single rfl)).append feeds_pushResult))
  | .unary _ .plus operand => feeds_lower number depth operand
  | .binary _ op left right =>
    (feeds_lower number depth left).append ((feeds_lower number (depth + 1) right).append
      ((feeds_pops 2).append ((feeds_ofBinary op).append feeds_pushResult)))
  | .sequence _ first second =>
    (feeds_lower number depth first).append
      ((Feeds.single rfl).append (feeds_lower number depth second))

theorem feeds_lowerAll (number : Symbol → SymbolId) (depth : Nat) :
    ∀ es : List Expr, Feeds (lowerAll number depth es)
  | [] => .nil
  | e :: es => (feeds_lower number depth e).append (feeds_lowerAll number (depth + 1) es)

end

/-! ## Dropping instructions -/

theorem fed_pass {fresh : Bool} (code : List Inst) (h : Fed fresh code) :
    Fed fresh (pass code) := by
  induction code using pass.induct generalizing fresh with
  | case1 => exact h
  | case2 i => exact h
  | case3 i j rest hRedundant ih =>
    rw [pass, if_pos hRedundant]
    obtain ⟨hFirst, _, hRest⟩ := h
    rcases redundant_cases hRedundant with ⟨rfl, rfl⟩ | ⟨register, rfl, rfl⟩
    · obtain rfl : fresh = true := hFirst rfl
      exact ih hRest
    · exact (ih hRest).mono
  | case4 i j rest hRedundant ih =>
    rw [pass, if_neg hRedundant]
    exact ⟨h.1, ih h.2⟩

theorem fed_iterate_pass {fresh : Bool} {code : List Inst} (h : Fed fresh code) (n : Nat) :
    Fed fresh (pass^[n] code) := by
  induction n generalizing code with
  | zero => exact h
  | succ n ih => exact ih (fed_pass code h)

namespace Fed

theorem raxDead {code : List Inst} (h : Fed false code) : raxDead code = true := by
  induction code with
  | nil => rfl
  | cons i code ih =>
    have hReads : i.readsRax = false := Bool.eq_false_iff.mpr fun hRead => by cases h.1 hRead
    cases hWrites : i.writesRax with
    | true => simp [Native.raxDead, hReads, hWrites]
    | false =>
      have hRest := h.2
      rw [hWrites] at hRest
      simp [Native.raxDead, hReads, ih hRest]

theorem suffix {fresh : Bool} {code rest : List Inst} (h : Fed fresh code)
    (hSuffix : rest <:+ code) : ∃ fresh, Fed fresh rest := by
  induction code generalizing fresh with
  | nil =>
    obtain rfl := List.suffix_nil.mp hSuffix
    exact ⟨fresh, h⟩
  | cons i code ih =>
    rcases List.suffix_cons_iff.mp hSuffix with rfl | hLater
    · exact ⟨fresh, h⟩
    · exact ih h.2 hLater

/-- Nothing reads `rax` where a move to it and back has been dropped. -/
theorem dropsDead {fresh : Bool} {code : List Inst} (h : Fed fresh code) : DropsDead code := by
  intro register rest hSuffix _
  obtain ⟨_, hMoves⟩ := h.suffix hSuffix
  exact raxDead hMoves.2.2

end Fed

/-- Repeating the pass on generated code keeps what the code computes. -/
theorem Machine.run_optimize_fed {σ : Type} {linkage : Linkage σ} (code : List Inst)
    {m last : Machine σ} (hFed : Fed false code) (h : run linkage code m = some last) :
    ∃ last', run linkage (optimize code) m = some last' ∧ Agree false last last' := by
  have hRel : Option.Rel (Agree false) (run linkage code m) (run linkage (optimize code) m) :=
    run_optimize code m fun n => (fed_iterate_pass hFed n).dropsDead
  rw [h] at hRel
  generalize run linkage (optimize code) m = optimized at hRel ⊢
  cases hRel with
  | some hAgree => exact ⟨_, rfl, hAgree⟩

end Formula.Native
