import Mathlib.Data.List.Forall2

/-!
# Computations

A computation in several steps succeeds if its steps do (`Except.bind_eq_ok_iff`), and one for each
element of a list if it does for each of them (`Except.mapM_eq_ok_iff`); if not, its error is that
of the first element for which it fails (`Except.mapM_eq_error`). Two computations may agree in
whether they succeed without having the same result (`ErrorsAgree`).
-/

namespace Formula

section Except

variable {α β ε : Type}

theorem Except.bind_eq_ok_iff {x : Except ε α} {f : α → Except ε β} {b : β} :
    x >>= f = .ok b ↔ ∃ a, x = .ok a ∧ f a = .ok b := by
  constructor
  · intro h
    cases x with
    | error error => cases h
    | ok a => exact ⟨a, rfl, h⟩
  · rintro ⟨a, rfl, h⟩
    exact h

theorem Except.mapM_eq_ok_iff {f : α → Except ε β} {xs : List α} {ys : List β} :
    xs.mapM f = .ok ys ↔ List.Forall₂ (fun x y => f x = .ok y) xs ys := by
  induction xs generalizing ys with
  | nil =>
    rw [List.mapM_nil, List.forall₂_nil_left_iff]
    exact ⟨fun h => (Except.ok.inj h).symm, fun h => congrArg Except.ok h.symm⟩
  | cons x xs ih =>
    rw [List.mapM_cons, List.forall₂_cons_left_iff, Except.bind_eq_ok_iff]
    constructor
    · rintro ⟨y, hHead, h⟩
      obtain ⟨rest, hTail, h⟩ := Except.bind_eq_ok_iff.mp h
      exact ⟨y, rest, hHead, ih.mp hTail, (Except.ok.inj h).symm⟩
    · rintro ⟨y, rest, hHead, hTail, rfl⟩
      exact ⟨y, hHead, Except.bind_eq_ok_iff.mpr ⟨rest, ih.mpr hTail, rfl⟩⟩

theorem Except.exists_of_mem_mapM {f : α → Except ε β} {xs : List α} {ys : List β}
    (h : xs.mapM f = .ok ys) {y : β} (hMem : y ∈ ys) : ∃ x ∈ xs, f x = .ok y := by
  rw [Except.mapM_eq_ok_iff] at h
  induction h with
  | nil => cases hMem
  | cons hHead hTail ih =>
    rcases List.mem_cons.mp hMem with rfl | hMem
    · exact ⟨_, List.mem_cons_self .., hHead⟩
    · obtain ⟨x, hOld, hValue⟩ := ih hMem
      exact ⟨x, List.mem_cons_of_mem _ hOld, hValue⟩

theorem Except.mapM_eq_error {f : α → Except ε β} {earlier later : List α} {x : α} {error : ε}
    (hEarlier : ∀ y ∈ earlier, ∃ b, f y = .ok b) (h : f x = .error error) :
    (earlier ++ x :: later).mapM f = .error error := by
  induction earlier with
  | nil =>
    rw [List.nil_append, List.mapM_cons, h]
    rfl
  | cons y earlier ih =>
    obtain ⟨b, hHead⟩ := hEarlier y (List.mem_cons_self ..)
    have hTail := ih fun other hOther => hEarlier other (List.mem_cons_of_mem _ hOther)
    rw [List.cons_append, List.mapM_cons, hHead, hTail]
    rfl

end Except

/-- Either a property holds of all elements, or there is a first element that does not have it. -/
theorem forall_mem_or_exists_first {α : Type} (p : α → Prop) (xs : List α) :
    (∀ x ∈ xs, p x) ∨
      ∃ earlier x later, xs = earlier ++ x :: later ∧ (∀ y ∈ earlier, p y) ∧ ¬p x := by
  classical
  cases hFound : xs.find? fun x => !decide (p x) with
  | none =>
    refine .inl fun x hMem => ?_
    have hHolds := List.find?_eq_none.mp hFound x hMem
    simpa using hHolds
  | some x =>
    obtain ⟨hNot, earlier, later, hSplit, hEarlier⟩ := List.find?_eq_some_iff_append.mp hFound
    refine .inr ⟨earlier, x, later, hSplit, fun y hMem => ?_, by simpa using hNot⟩
    simpa using hEarlier y hMem

/-- The last of several elements ends the list, or comes after an element that does not. -/
theorem concat_eq_append_cons_iff {α : Type} {xs earlier later : List α} {x last : α} :
    xs ++ [last] = earlier ++ x :: later ↔
      (later = [] ∧ xs = earlier ∧ x = last) ∨
        ∃ others, later = others ++ [last] ∧ xs = earlier ++ x :: others := by
  constructor
  · intro hSplit
    rcases List.eq_nil_or_concat' later with rfl | ⟨others, final, rfl⟩
    · obtain ⟨rfl, hLast⟩ := List.append_inj' hSplit rfl
      exact .inl ⟨rfl, rfl, (List.singleton_inj.mp hLast).symm⟩
    · rw [← List.cons_append, ← List.append_assoc] at hSplit
      obtain ⟨hSplit, hLast⟩ := List.append_inj' hSplit rfl
      rw [← List.singleton_inj.mp hLast]
      exact .inr ⟨others, rfl, hSplit⟩
  · rintro (⟨rfl, rfl, rfl⟩ | ⟨others, rfl, rfl⟩)
    · rfl
    · simp

/-- Two results that are both successful, or the same error. -/
inductive ErrorsAgree {ε α β : Type} : Except ε α → Except ε β → Prop where
  | ok (a : α) (b : β) : ErrorsAgree (.ok a) (.ok b)
  | error (error : ε) : ErrorsAgree (.error error) (.error error)

namespace ErrorsAgree

variable {α β γ δ ε : Type}

theorem bind {x : Except ε α} {y : Except ε β} {f : α → Except ε γ} {g : β → Except ε δ}
    (h : ErrorsAgree x y) (hNext : ∀ a b, x = .ok a → y = .ok b → ErrorsAgree (f a) (g b)) :
    ErrorsAgree (x >>= f) (y >>= g) := by
  cases h with
  | ok a b => exact hNext a b rfl rfl
  | error error => exact .error error

theorem mapM {f : α → Except ε β} {g : α → Except ε γ} {xs : List α}
    (h : ∀ x ∈ xs, ErrorsAgree (f x) (g x)) : ErrorsAgree (xs.mapM f) (xs.mapM g) := by
  induction xs with
  | nil => exact .ok [] []
  | cons x xs ih =>
    rw [List.mapM_cons, List.mapM_cons]
    refine (h x (List.mem_cons_self ..)).bind fun y z _ _ => ?_
    refine (ih fun other hOther => h other (List.mem_cons_of_mem _ hOther)).bind ?_
    exact fun ys zs _ _ => .ok (y :: ys) (z :: zs)

end ErrorsAgree

section State

variable {σ α β : Type}

theorem StateM.pure_apply (a : α) (s : σ) : (pure a : StateM σ α) s = (a, s) := rfl

theorem StateM.bind_apply (x : StateM σ α) (f : α → StateM σ β) (s : σ) :
    (x >>= f) s = f (x s).1 (x s).2 := rfl

theorem StateM.map_apply (f : α → β) (x : StateM σ α) (s : σ) :
    (f <$> x) s = (f (x s).1, (x s).2) := rfl

end State

end Formula
