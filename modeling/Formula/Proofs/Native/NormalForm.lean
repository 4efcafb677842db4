import Formula.Proofs.Native.Liveness
import Formula.Proofs.SharedSymbols

/-!
# The normal form of the peephole pass

The passes stop, because each but the last drops at least one pair, and what is left has no adjacent
pair that could be dropped (`redundant_eq_false_of_pass_eq`). Only moves between `rax`, the stack and
the other registers are dropped, so all other instructions and all uses of symbols stay, in their
order.

A pair that is dropped pushes as many words as it pops. So every instruction that is kept has as
many words on the stack in front of it as before. To say so, `optimizeMarked` carries a mark along
with each instruction: marked with their depths, the instructions come out marked with their new
depths (`optimizeMarked_withDepths`). The main result is `optimize_reaches_normal_form`.
-/

namespace Formula.Native

/-! ## What a pass drops -/

/-- Whether an instruction only moves a word between `rax` and the stack or another register. -/
def Inst.isMove : Inst → Bool
  | pushRax | popRax | xmmToRax _ | raxToXmm _ => true
  | _ => false

/-- What is left of code when pairs of moves have been dropped. -/
structure Thinned (code thin : List Inst) : Prop where
  sublist : thin.Sublist code
  pairs : ∃ pairs, code.length = thin.length + 2 * pairs
  others : thin.filter (!·.isMove) = code.filter (!·.isMove)

namespace Thinned

variable {code thin thinner : List Inst} {i j : Inst} {rest : List Inst}

theorem refl (code : List Inst) : Thinned code code :=
  ⟨.refl code, ⟨0, rfl⟩, rfl⟩

theorem trans (h : Thinned code thin) (h' : Thinned thin thinner) : Thinned code thinner where
  sublist := h'.sublist.trans h.sublist
  pairs := by
    obtain ⟨pairs, hPairs⟩ := h.pairs
    obtain ⟨more, hMore⟩ := h'.pairs
    exact ⟨pairs + more, by omega⟩
  others := h'.others.trans h.others

theorem keep (h : Thinned code thin) (i : Inst) : Thinned (i :: code) (i :: thin) where
  sublist := h.sublist.cons_cons i
  pairs := by
    obtain ⟨pairs, hPairs⟩ := h.pairs
    exact ⟨pairs, by simp only [List.length_cons]; omega⟩
  others := by rw [List.filter_cons, List.filter_cons, h.others]

theorem drop (h : Thinned code thin) (hRedundant : redundant i j rest = true) :
    Thinned (i :: j :: code) thin where
  sublist := (h.sublist.cons j).cons i
  pairs := by
    obtain ⟨pairs, hPairs⟩ := h.pairs
    exact ⟨pairs + 1, by simp only [List.length_cons]; omega⟩
  others := by
    rcases redundant_cases hRedundant with ⟨rfl, rfl⟩ | ⟨register, rfl, rfl⟩ <;> exact h.others

theorem length_le (h : Thinned code thin) : thin.length ≤ code.length :=
  h.sublist.length_le

theorem eq_of_length (h : Thinned code thin) (hLength : ¬thin.length < code.length) :
    thin = code :=
  h.sublist.eq_of_length (Nat.le_antisymm h.length_le (Nat.le_of_not_lt hLength))

end Thinned

theorem thinned_pass (code : List Inst) : Thinned code (pass code) := by
  induction code using pass.induct with
  | case1 => exact .refl []
  | case2 i => exact .refl [i]
  | case3 i j rest hRedundant ih =>
    rw [pass, if_pos hRedundant]
    exact ih.drop hRedundant
  | case4 i j rest hRedundant ih =>
    rw [pass, if_neg hRedundant]
    exact ih.keep i

theorem thinned_optimize (code : List Inst) : Thinned code (optimize code) := by
  induction code using optimize.induct with
  | case1 code hShorter ih =>
    rw [optimize_of_shorter hShorter]
    exact (thinned_pass code).trans ih
  | case2 code hShorter =>
    rw [optimize_of_not_shorter hShorter]
    exact .refl code

/-! ## The normal form -/

/-- Code that a pass leaves as it is has no pair that could be dropped. -/
theorem redundant_eq_false_of_pass_eq {code : List Inst} (h : pass code = code) {i j : Inst}
    {rest : List Inst} (front : List Inst) (hCode : code = front ++ i :: j :: rest) :
    redundant i j rest = false := by
  -- a pair dropped at the front would make the code shorter
  have hFirst {first second : Inst} {more : List Inst}
      (h : pass (first :: second :: more) = first :: second :: more) :
      redundant first second more = false := by
    by_contra hRedundant
    rw [pass, if_pos (Bool.not_eq_false _ ▸ hRedundant)] at h
    have hLength := (thinned_pass more).length_le
    simp only [h, List.length_cons] at hLength
    omega
  induction front generalizing code with
  | nil =>
    rw [hCode] at h
    exact hFirst h
  | cons first front ih =>
    obtain ⟨second, more, hMore⟩ := List.exists_cons_of_ne_nil
      (List.append_ne_nil_of_right_ne_nil front (List.cons_ne_nil i (j :: rest)))
    rw [hCode, List.cons_append, hMore] at h
    have hKept := hFirst h
    rw [pass, if_neg (by rw [hKept]; exact Bool.false_ne_true)] at h
    exact ih (List.cons.inj h).2 hMore.symm

/-- The passes stop at code that one more pass leaves as it is. -/
theorem exists_iterate_pass (code : List Inst) :
    ∃ n, 2 * n ≤ code.length ∧ optimize code = pass^[n] code ∧
      (∀ m < n, (pass^[m + 1] code).length < (pass^[m] code).length) ∧
      pass (optimize code) = optimize code := by
  induction code using optimize.induct with
  | case1 code hShorter ih =>
    obtain ⟨n, hLength, hIterate, hEarlier, hFixed⟩ := ih
    obtain ⟨pairs, hPairs⟩ := (thinned_pass code).pairs
    rw [optimize_of_shorter hShorter]
    refine ⟨n + 1, by omega, hIterate, fun m hm => ?_, hFixed⟩
    cases m with
    | zero => exact hShorter
    | succ m => exact hEarlier m (Nat.lt_of_succ_lt_succ hm)
  | case2 code hShorter =>
    rw [optimize_of_not_shorter hShorter]
    exact ⟨0, Nat.zero_le _, rfl, fun m hm => absurd hm (Nat.not_lt_zero m),
      (thinned_pass code).eq_of_length hShorter⟩

theorem optimize_of_pass_eq {code : List Inst} (h : pass code = code) : optimize code = code :=
  optimize_of_not_shorter (by rw [h]; exact Nat.lt_irrefl _)

/-! ## Marks -/

section Marks

variable {α : Type}

/-- The pass on instructions that carry marks. -/
def passMarked : List (Inst × α) → List (Inst × α)
  | [] => []
  | [i] => [i]
  | i :: j :: rest =>
    if redundant i.1 j.1 (rest.map Prod.fst) then passMarked rest else i :: passMarked (j :: rest)

/-- The passes on instructions that carry marks. -/
def optimizeMarked (marked : List (Inst × α)) : List (Inst × α) :=
  if (passMarked marked).length < marked.length then optimizeMarked (passMarked marked) else marked
termination_by marked.length

theorem map_fst_passMarked (marked : List (Inst × α)) :
    (passMarked marked).map Prod.fst = pass (marked.map Prod.fst) := by
  induction marked using passMarked.induct with
  | case1 => rfl
  | case2 i => rfl
  | case3 i j rest hRedundant ih =>
    have hPass : pass ((i :: j :: rest).map Prod.fst) = pass (rest.map Prod.fst) := by
      simp only [List.map_cons, pass, hRedundant, if_true]
    rw [passMarked, if_pos hRedundant, ih, hPass]
  | case4 i j rest hRedundant ih =>
    have hPass : pass ((i :: j :: rest).map Prod.fst) =
        i.1 :: pass ((j :: rest).map Prod.fst) := by
      simp only [List.map_cons, pass, hRedundant, Bool.false_eq_true, if_false]
    rw [hPass, passMarked, if_neg hRedundant, List.map_cons, ih]

theorem length_passMarked (marked : List (Inst × α)) :
    (passMarked marked).length = (pass (marked.map Prod.fst)).length := by
  rw [← map_fst_passMarked, List.length_map]

theorem passMarked_sublist (marked : List (Inst × α)) : (passMarked marked).Sublist marked := by
  induction marked using passMarked.induct with
  | case1 => exact .slnil
  | case2 i => exact .refl [i]
  | case3 i j rest hRedundant ih =>
    rw [passMarked, if_pos hRedundant]
    exact (ih.cons j).cons i
  | case4 i j rest hRedundant ih =>
    rw [passMarked, if_neg hRedundant]
    exact ih.cons_cons i

theorem map_fst_optimizeMarked (marked : List (Inst × α)) :
    (optimizeMarked marked).map Prod.fst = optimize (marked.map Prod.fst) := by
  induction marked using optimizeMarked.induct with
  | case1 marked hShorter ih =>
    rw [optimizeMarked, if_pos hShorter, ih, map_fst_passMarked]
    rw [length_passMarked, ← List.length_map (f := Prod.fst)] at hShorter
    exact (optimize_of_shorter hShorter).symm
  | case2 marked hShorter =>
    rw [optimizeMarked, if_neg hShorter]
    rw [length_passMarked, ← List.length_map (f := Prod.fst)] at hShorter
    exact (optimize_of_not_shorter hShorter).symm

theorem optimizeMarked_sublist (marked : List (Inst × α)) :
    (optimizeMarked marked).Sublist marked := by
  induction marked using optimizeMarked.induct with
  | case1 marked hShorter ih =>
    rw [optimizeMarked, if_pos hShorter]
    exact ih.trans (passMarked_sublist marked)
  | case2 marked hShorter =>
    rw [optimizeMarked, if_neg hShorter]

end Marks

/-! ## Depths -/

/-- The words that an instruction pushes, less those that it pops. A word that is reserved to align
the stack counts as much as `reserved` says. -/
def Inst.pushed (reserved : Int) : Inst → Int
  | pushRax | pushMemRax => 1
  | popRax => -1
  | alignStack => reserved
  | restoreStack => -reserved
  | _ => 0

/-- Each instruction with the number of words that have been pushed in front of it, if it is `depth`
at the first. -/
def withDepths (reserved depth : Int) : List Inst → List (Inst × Int)
  | [] => []
  | i :: rest => (i, depth) :: withDepths reserved (depth + i.pushed reserved) rest

theorem map_fst_withDepths (reserved : Int) (code : List Inst) (depth : Int) :
    (withDepths reserved depth code).map Prod.fst = code := by
  induction code generalizing depth with
  | nil => rfl
  | cons i rest ih => rw [withDepths, List.map_cons, ih]

theorem length_withDepths (reserved : Int) (code : List Inst) (depth : Int) :
    (withDepths reserved depth code).length = code.length := by
  rw [← List.length_map (f := Prod.fst), map_fst_withDepths]

theorem pushed_of_redundant (reserved : Int) {i j : Inst} {rest : List Inst}
    (h : redundant i j rest = true) : i.pushed reserved + j.pushed reserved = 0 := by
  rcases redundant_cases h with ⟨rfl, rfl⟩ | ⟨register, rfl, rfl⟩ <;> rfl

theorem passMarked_withDepths (reserved : Int) (code : List Inst) (depth : Int) :
    passMarked (withDepths reserved depth code) = withDepths reserved depth (pass code) := by
  induction code using pass.induct generalizing depth with
  | case1 => rfl
  | case2 i => rfl
  | case3 i j rest hRedundant ih =>
    have hDepth : depth + i.pushed reserved + j.pushed reserved = depth := by
      rw [Int.add_assoc, pushed_of_redundant reserved hRedundant, Int.add_zero]
    rw [pass, if_pos hRedundant, withDepths, withDepths, passMarked, map_fst_withDepths,
      if_pos hRedundant, hDepth, ih]
  | case4 i j rest hRedundant ih =>
    have hRest := ih (depth + i.pushed reserved)
    rw [withDepths] at hRest
    rw [pass, if_neg hRedundant, withDepths, withDepths, passMarked, map_fst_withDepths,
      if_neg hRedundant, hRest, withDepths]

/-- The depths of the instructions that are kept do not change. -/
theorem optimizeMarked_withDepths (reserved : Int) (code : List Inst) (depth : Int) :
    optimizeMarked (withDepths reserved depth code) =
      withDepths reserved depth (optimize code) := by
  induction code using optimize.induct with
  | case1 code hShorter ih =>
    rw [optimize_of_shorter hShorter, optimizeMarked, passMarked_withDepths, length_withDepths,
      length_withDepths, if_pos hShorter, ih]
  | case2 code hShorter =>
    rw [optimize_of_not_shorter hShorter, optimizeMarked, passMarked_withDepths, length_withDepths,
      length_withDepths, if_neg hShorter]

/-! ## The passes -/

/-- The passes end, after one that changes nothing: there are at most half as many before it as
there are instructions, and each of them makes the code shorter. Pairs of instructions have been
dropped, and what is left has no push of `rax` in front of a pop into it, and no move to `rax` in
front of the move back unless an instruction that reads `rax` follows. Nothing changes a second
time. Instructions that are no moves are all kept, as are the uses of symbols, and each instruction
that is kept has as many words on the stack in front of it as before, whether reserved words count
or not. -/
theorem optimize_reaches_normal_form (code : List Inst) :
    (∃ n, 2 * n ≤ code.length ∧ optimize code = pass^[n] code ∧
      (∀ m < n, (pass^[m + 1] code).length < (pass^[m] code).length) ∧
      pass (optimize code) = optimize code) ∧
    (optimize code).Sublist code ∧
    (∃ pairs, code.length = (optimize code).length + 2 * pairs) ∧
    (∀ front rest, optimize code ≠ front ++ .pushRax :: .popRax :: rest) ∧
    (∀ register front rest,
      optimize code = front ++ .xmmToRax register :: .raxToXmm register :: rest →
      ∃ i later, rest = i :: later ∧ i.readsRax = true) ∧
    optimize (optimize code) = optimize code ∧
    (optimize code).filter (!·.isMove) = code.filter (!·.isMove) ∧
    (relocations (optimize code)).map (fun r => (r.symbol, r.kind)) =
      (relocations code).map (fun r => (r.symbol, r.kind)) ∧
    (∀ {α : Type} (marked : List (Inst × α)),
      (optimizeMarked marked).map Prod.fst = optimize (marked.map Prod.fst) ∧
        (optimizeMarked marked).Sublist marked) ∧
    ∀ reserved depth, optimizeMarked (withDepths reserved depth code) =
      withDepths reserved depth (optimize code) := by
  have hThinned := thinned_optimize code
  obtain ⟨n, hLength, hIterate, hEarlier, hFixed⟩ := exists_iterate_pass code
  refine ⟨⟨n, hLength, hIterate, hEarlier, hFixed⟩, hThinned.sublist, hThinned.pairs, ?_, ?_,
    optimize_of_pass_eq hFixed, hThinned.others, ?_,
    fun marked => ⟨map_fst_optimizeMarked marked, optimizeMarked_sublist marked⟩,
    fun reserved depth => optimizeMarked_withDepths reserved code depth⟩
  · intro front rest hCode
    cases redundant_eq_false_of_pass_eq hFixed front hCode
  · intro register front rest hCode
    have hKept := redundant_eq_false_of_pass_eq hFixed front hCode
    cases rest with
    | nil => simp [redundant] at hKept
    | cons i later => exact ⟨i, later, rfl, by simpa [redundant] using hKept⟩
  · rw [map_relocations, map_relocations, filterMap_symbol?_optimize]

end Formula.Native
