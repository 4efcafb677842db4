import Formula.Native.Machine
import Formula.Native.Peephole
import Mathlib.Logic.Function.Iterate
import Mathlib.Tactic.SplitIfs

/-!
# When `rax` is dead

The peephole pass drops a move of a register to `rax` and back, and `rax` then keeps what it held
before. This is sound where `rax` is dead, that is, overwritten before it is read (`raxDead`). But
the pass looks only one instruction ahead, so it also drops such moves where `rax` is read later on,
and the code then does something else (`optimize_drops_live_move`).

If the passes drop them only where `rax` is dead (`DropsDead`), the code does on every machine what
it did before (`optimize_preserves_meaning`). At every place the machine that runs the code after
the pass agrees with the one before it, on `rax` as well unless `rax` is dead there (`run_pass`).
-/

namespace Formula.Native

/-- Whether an instruction gives `rax` a value that does not depend on the one it had. -/
def Inst.writesRax : Inst → Bool
  | movAbsRax _ | xmmToRax _ | popRax => true
  | _ => false

/-- Whether `rax` is overwritten before it is read, or not read up to where the code ends. -/
def raxDead : List Inst → Bool
  | [] => true
  | i :: rest => i = .ret || (!i.readsRax && (i.writesRax || raxDead rest))

/-- Wherever the pass drops a move to `rax` and back, `rax` is dead. -/
def DropsDead (code : List Inst) : Prop :=
  ∀ register rest, .xmmToRax register :: .raxToXmm register :: rest <:+ code →
    redundant (.xmmToRax register) (.raxToXmm register) rest = true → raxDead rest = true

theorem DropsDead.tail {i : Inst} {code : List Inst} (h : DropsDead (i :: code)) :
    DropsDead code :=
  fun register rest hSuffix => h register rest (hSuffix.trans (List.suffix_cons i code))

/-- Where `rax` is dead, the next instruction does not read it. -/
theorem readsRax_of_raxDead {i : Inst} {rest : List Inst} (h : raxDead (i :: rest) = true) :
    i.readsRax = false := by
  simp only [raxDead, Bool.or_eq_true, decide_eq_true_eq, Bool.and_eq_true, Bool.not_eq_true'] at h
  rcases h with rfl | h
  · rfl
  · exact h.1

/-- What the next instruction reads is not dead. -/
theorem fresh_of_readsRax {fresh : Bool} {i : Inst} {rest : List Inst}
    (hDead : fresh = false → raxDead (i :: rest) = true) (hRead : i.readsRax = true) :
    fresh = true := by
  by_contra hFresh
  rw [readsRax_of_raxDead (hDead (Bool.eq_false_iff.mpr hFresh))] at hRead
  cases hRead

/-- Where `rax` is dead, it stays so until it is written or the code returns. -/
theorem raxDead_of_cons {i : Inst} {rest : List Inst} (h : raxDead (i :: rest) = true)
    (hRet : i ≠ .ret) (hWrites : i.writesRax = false) : raxDead rest = true := by
  simpa [raxDead, hRet, hWrites, readsRax_of_raxDead h] using h

theorem optimize_of_shorter {code : List Inst} (h : (pass code).length < code.length) :
    optimize code = optimize (pass code) := by
  rw [optimize, if_pos h]

theorem optimize_of_not_shorter {code : List Inst} (h : ¬(pass code).length < code.length) :
    optimize code = code := by
  rw [optimize, if_neg h]

/-- What the two pairs that are dropped look like. -/
theorem redundant_cases {first second : Inst} {rest : List Inst}
    (h : redundant first second rest = true) :
    (first = .pushRax ∧ second = .popRax) ∨
      ∃ register, first = .xmmToRax register ∧ second = .raxToXmm register := by
  unfold redundant at h
  split at h
  · exact .inl ⟨rfl, rfl⟩
  · simp only [Bool.and_eq_true, decide_eq_true_eq] at h
    exact .inr ⟨_, rfl, by rw [h.1]⟩
  · cases h

namespace Machine

variable {σ : Type} {linkage : Linkage σ}

/-- Machines that differ in `rax` at most, and not even there if it is `fresh`. -/
structure Agree (fresh : Bool) (m m' : Machine σ) : Prop where
  rdi : m'.registers.rdi = m.registers.rdi
  xmm : m'.registers.xmm = m.registers.xmm
  rax : fresh → m'.registers.rax = m.registers.rax
  stack : m'.stack = m.stack
  state : m'.state = m.state

namespace Agree

variable {fresh : Bool} {m m' m'' : Machine σ}

theorem refl (m : Machine σ) : Agree fresh m m :=
  ⟨rfl, rfl, fun _ => rfl, rfl, rfl⟩

theorem eq (h : Agree true m m') : m' = m := by
  obtain ⟨⟨rax, rdi, xmm⟩, stack, state⟩ := m
  obtain ⟨⟨rax', rdi', xmm'⟩, stack', state'⟩ := m'
  obtain ⟨rfl, rfl, hRax, rfl, rfl⟩ := h
  obtain rfl := hRax rfl
  rfl

theorem weaken (h : Agree fresh m m') : Agree false m m' :=
  { h with rax := fun hFresh => absurd hFresh Bool.false_ne_true }

theorem trans (h : Agree false m m') (h' : Agree false m' m'') : Agree false m m'' :=
  ⟨h'.rdi.trans h.rdi, h'.xmm.trans h.xmm, fun hFresh => absurd hFresh Bool.false_ne_true,
    h'.stack.trans h.stack, h'.state.trans h.state⟩

end Agree

/-! ## One instruction -/

/-- An instruction that does not read `rax` does the same to machines that agree up to `rax`. -/
theorem step_of_not_reads {m m' : Machine σ} {i : Inst} (hAgree : Agree false m m')
    (hReads : i.readsRax = false) :
    Option.Rel (Agree i.writesRax) (m.step linkage i) (m'.step linkage i) := by
  obtain ⟨⟨rax, rdi, xmm⟩, stack, state⟩ := m
  obtain ⟨⟨rax', rdi', xmm'⟩, stack', state'⟩ := m'
  obtain ⟨rfl, rfl, -, rfl, rfl⟩ := hAgree
  cases i with
  | raxToXmm | pushRax | pushMemRax | callRax => cases hReads
  | popRax =>
    cases stack' with
    | nil => exact .none
    | cons word rest => exact .some ⟨rfl, rfl, fun _ => rfl, rfl, rfl⟩
  | restoreStack =>
    cases stack' with
    | nil => exact .none
    | cons word rest => exact .some ⟨rfl, rfl, nofun, rfl, rfl⟩
  | movAbsRax | xmmToRax => exact .some ⟨rfl, rfl, fun _ => rfl, rfl, rfl⟩
  | movAbsRdi | addSd | subSd | mulSd | divSd | xorPd | ret | alignStack =>
    exact .some ⟨rfl, rfl, nofun, rfl, rfl⟩

/-- An instruction does the same to machines that agree, if it does not read where they differ. -/
theorem step_agree {fresh : Bool} {m m' : Machine σ} {i : Inst} (hAgree : Agree fresh m m')
    (hReads : i.readsRax → fresh) :
    Option.Rel (Agree (fresh || i.writesRax)) (m.step linkage i) (m'.step linkage i) := by
  cases fresh with
  | true =>
    obtain rfl := hAgree.eq
    cases m'.step linkage i with
    | none => exact .none
    | some m₁ => exact .some (.refl m₁)
  | false =>
    exact step_of_not_reads hAgree (Bool.eq_false_iff.mpr fun hRead => by cases hReads hRead)

/-- Moving a register to `rax` and back changes `rax` only. -/
theorem agree_moved (m : Machine σ) (register : UInt8) :
    Agree false ⟨{ m.registers with rax := m.registers.getXmm register }.setXmm register
      (m.registers.getXmm register), m.stack, m.state⟩ m where
  rdi := rfl
  xmm := by simp [Registers.setXmm, Registers.getXmm]
  rax := by simp
  stack := rfl
  state := rfl

/-! ## Runs -/

/-- A run ends at `ret` and goes on after any other instruction. -/
theorem run_cons (i : Inst) (rest : List Inst) (m : Machine σ) :
    run linkage (i :: rest) m =
      if i = .ret then some m else (m.step linkage i).bind (run linkage rest) := by
  cases i with
  | popRax | restoreStack => cases hStack : m.stack <;> simp [run, step, hStack]
  | _ => rfl

theorem run_cons_agree {fresh : Bool} {m m' : Machine σ} {i : Inst} {rest rest' : List Inst}
    (hAgree : Agree fresh m m') (hReads : i.readsRax → fresh)
    (hRest : i ≠ .ret → ∀ {m₁ m₁' : Machine σ}, Agree (fresh || i.writesRax) m₁ m₁' →
      Option.Rel (Agree false) (run linkage rest m₁) (run linkage rest' m₁')) :
    Option.Rel (Agree false) (run linkage (i :: rest) m) (run linkage (i :: rest') m') := by
  rw [run_cons, run_cons]
  split_ifs with hRet
  · exact .some hAgree.weaken
  · have hStep : Option.Rel _ (m.step linkage i) (m'.step linkage i) := step_agree hAgree hReads
    generalize m.step linkage i = after, m'.step linkage i = after' at hStep
    cases hStep with
    | none => exact .none
    | some hAfter => exact hRest hRet hAfter

/-- The pass keeps what the code computes. The machines agree on `rax` unless it is dead. -/
theorem run_pass {fresh : Bool} (code : List Inst) {m m' : Machine σ}
    (hDead : fresh = false → raxDead code = true) (hDrops : DropsDead code)
    (hAgree : Agree fresh m m') :
    Option.Rel (Agree false) (run linkage code m) (run linkage (pass code) m') := by
  induction code using pass.induct generalizing fresh m m' with
  | case1 => exact .none
  | case2 i => exact run_cons_agree hAgree (fresh_of_readsRax hDead) fun _ _ _ _ => .none
  | case3 i j rest hRedundant ih =>
    rw [pass, if_pos hRedundant]
    rcases redundant_cases hRedundant with ⟨rfl, rfl⟩ | ⟨register, rfl, rfl⟩
    · -- `rax` is written back as it was, and the machines agree on it because it is read here
      obtain rfl : fresh = true := fresh_of_readsRax hDead rfl
      have hLive : true = false → raxDead rest = true := nofun
      exact ih hLive hDrops.tail.tail hAgree
    · have hRest := hDrops register rest (List.suffix_refl _) hRedundant
      exact ih (fun _ => hRest) hDrops.tail.tail ((agree_moved m register).trans hAgree.weaken)
  | case4 i j rest hRedundant ih =>
    rw [pass, if_neg hRedundant]
    refine run_cons_agree hAgree (fresh_of_readsRax hDead) fun hRet {m₁ m₁'} hAfter => ?_
    refine ih (fun hFresh => ?_) hDrops.tail hAfter
    obtain ⟨hFresh, hWrites⟩ := Bool.or_eq_false_iff.mp hFresh
    exact raxDead_of_cons (hDead hFresh) hRet hWrites

/-- Repeating the pass keeps what the code computes. -/
theorem run_optimize (code : List Inst) (m : Machine σ) (hDrops : ∀ n, DropsDead (pass^[n] code)) :
    Option.Rel (Agree false) (run linkage code m) (run linkage (optimize code) m) := by
  induction code using optimize.induct with
  | case1 code hShorter ih =>
    rw [optimize_of_shorter hShorter]
    have hLive : true = false → raxDead code = true := nofun
    have hFirst : Option.Rel (Agree false) (run linkage code m) (run linkage (pass code) m) :=
      run_pass code hLive (hDrops 0) (.refl m)
    have hRest := ih fun n => hDrops (n + 1)
    generalize run linkage code m = last, run linkage (pass code) m = last₁,
      run linkage (optimize (pass code)) m = last₂ at hFirst hRest
    cases hFirst with
    | none => exact hRest
    | some hAgree =>
      cases hRest with
      | some hAgree' => exact .some (hAgree.trans hAgree')
  | case2 code hShorter =>
    rw [optimize_of_not_shorter hShorter]
    cases run linkage code m with
    | none => exact .none
    | some last => exact .some (.refl last)

end Machine

/-! ## Code that does not return -/

theorem redundant_concat_ret (first second : Inst) (rest : List Inst) :
    redundant first second (rest ++ [.ret]) = redundant first second rest := by
  cases rest <;> cases first <;> cases second <;> rfl

theorem pass_concat_ret (code : List Inst) : pass (code ++ [.ret]) = pass code ++ [.ret] := by
  induction code using pass.induct with
  | case1 => rfl
  | case2 i => cases i <;> rfl
  | case3 i j rest hRedundant ih =>
    have hSame := (redundant_concat_ret i j rest).trans hRedundant
    calc pass (i :: j :: (rest ++ [.ret]))
      _ = pass (rest ++ [.ret]) := by rw [pass, if_pos hSame]
      _ = pass (i :: j :: rest) ++ [.ret] := by rw [ih, pass, if_pos hRedundant]
  | case4 i j rest hRedundant ih =>
    have hSame : ¬redundant i j (rest ++ [.ret]) = true := by rwa [redundant_concat_ret]
    calc pass (i :: j :: (rest ++ [.ret]))
      _ = i :: pass (j :: rest ++ [.ret]) := by rw [pass, if_neg hSame, List.cons_append]
      _ = pass (i :: j :: rest) ++ [.ret] := by rw [ih, pass, if_neg hRedundant, List.cons_append]

theorem iterate_pass_concat_ret (n : Nat) (code : List Inst) :
    pass^[n] (code ++ [.ret]) = pass^[n] code ++ [.ret] := by
  induction n generalizing code with
  | zero => rfl
  | succ n ih => rw [Function.iterate_succ_apply, pass_concat_ret, ih, Function.iterate_succ_apply]

theorem optimize_concat_ret (code : List Inst) :
    optimize (code ++ [.ret]) = optimize code ++ [.ret] := by
  induction code using optimize.induct with
  | case1 code hShorter ih =>
    have hLess : (pass (code ++ [Inst.ret])).length < (code ++ [Inst.ret]).length := by
      simpa [pass_concat_ret] using hShorter
    rw [optimize_of_shorter hLess, pass_concat_ret, ih, optimize_of_shorter hShorter]
  | case2 code hShorter =>
    have hLess : ¬(pass (code ++ [Inst.ret])).length < (code ++ [Inst.ret]).length := by
      simpa [pass_concat_ret] using hShorter
    rw [optimize_of_not_shorter hLess, optimize_of_not_shorter hShorter]

theorem raxDead_concat_ret (code : List Inst) : raxDead (code ++ [.ret]) = raxDead code := by
  induction code with
  | nil => rfl
  | cons i code ih => rw [List.cons_append, raxDead, raxDead, ih]

theorem DropsDead.concat_ret {code : List Inst} (h : DropsDead code) :
    DropsDead (code ++ [.ret]) := by
  intro register rest hSuffix hRedundant
  rcases List.suffix_concat_iff.mp hSuffix with hNil | ⟨front, hFront, hFrontSuffix⟩
  · cases hNil
  · rcases front with _ | ⟨first, _ | ⟨second, rest⟩⟩
    · cases hFront
    · cases hFront
    · simp only [List.cons_append, List.cons.injEq] at hFront
      obtain ⟨rfl, rfl, rfl⟩ := hFront
      rw [redundant_concat_ret] at hRedundant
      rw [raxDead_concat_ret]
      exact h register rest hFrontSuffix hRedundant

/-! ## What the passes keep -/

namespace Machine

variable {σ : Type}

/-- Executes code up to its first `ret` or its end. -/
def execute (linkage : Linkage σ) (code : List Inst) (m : Machine σ) : Option (Machine σ) :=
  run linkage (code ++ [.ret]) m

/-- All of a machine but `rax`: the stack, `rdi`, the registers `xmm0` to `xmm7`, and the world. -/
def observed (m : Machine σ) : List UInt64 × UInt64 × Vector UInt64 8 × σ :=
  (m.stack, m.registers.rdi, m.registers.xmm, m.state)

/-- Code does on every machine what it did before the passes, if they drop moves to `rax` and back
only where `rax` is dead. The state `σ` is arbitrary and may record the calls: they are the same, in
the same order, with the same targets, environments and arguments. -/
theorem optimize_preserves_meaning {code : List Inst} (hDrops : ∀ n, DropsDead (pass^[n] code))
    (linkage : Linkage σ) (m : Machine σ) :
    (execute linkage (optimize code) m).map observed =
      (execute linkage code m).map observed := by
  have hRel : Option.Rel (Agree false) (execute linkage code m)
      (execute linkage (optimize code) m) := by
    rw [execute, execute, ← optimize_concat_ret]
    refine run_optimize _ m fun n => ?_
    rw [iterate_pass_concat_ret]
    exact (hDrops n).concat_ret
  generalize execute linkage code m = last, execute linkage (optimize code) m = last' at hRel ⊢
  cases hRel with
  | none => rfl
  | some hAgree =>
    obtain ⟨hRdi, hXmm, -, hStack, hState⟩ := hAgree
    simp only [Option.map_some, observed, hRdi, hXmm, hStack, hState]

/-- A word that goes from `xmm0` over the stack and back, in front of a call. -/
def roundTripBeforeCall : List Inst :=
  [.xmmToRax 0, .pushRax, .popRax, .raxToXmm 0, .movAbsRdi (.value 1), .movAbsRax (.symbol 2),
    .callRax]

/-- The call reads the address that is loaded behind the move, so `rax` is dead in between. -/
theorem optimize_roundTripBeforeCall : (∀ n, DropsDead (pass^[n] roundTripBeforeCall)) ∧
    optimize roundTripBeforeCall = [.movAbsRdi (.value 1), .movAbsRax (.symbol 2), .callRax] ∧
    ∀ (linkage : Linkage Nat) (m : Machine Nat),
      (execute linkage (optimize roundTripBeforeCall) m).map observed =
        (execute linkage roundTripBeforeCall m).map observed := by
  have hDrops (n : Nat) : DropsDead (pass^[n] roundTripBeforeCall) := by
    intro register rest hSuffix _
    match n with
    | 0 => simp [roundTripBeforeCall, List.suffix_cons_iff] at hSuffix
    | 1 =>
      obtain ⟨-, rfl⟩ : register = 0 ∧
          rest = [.movAbsRdi (.value 1), .movAbsRax (.symbol 2), .callRax] := by
        simpa [roundTripBeforeCall, pass, redundant, List.suffix_cons_iff] using hSuffix
      rfl
    | n + 2 =>
      have hTwice : pass^[2] roundTripBeforeCall =
          [.movAbsRdi (.value 1), .movAbsRax (.symbol 2), .callRax] := rfl
      have hFixed : pass [.movAbsRdi (.value 1), .movAbsRax (.symbol 2), .callRax] =
          [.movAbsRdi (.value 1), .movAbsRax (.symbol 2), .callRax] := rfl
      rw [Function.iterate_add_apply, hTwice, Function.iterate_fixed hFixed] at hSuffix
      simp [List.suffix_cons_iff] at hSuffix
  refine ⟨hDrops, ?_, fun linkage m => optimize_preserves_meaning hDrops linkage m⟩
  have hOnce : pass roundTripBeforeCall =
      [.xmmToRax 0, .raxToXmm 0, .movAbsRdi (.value 1), .movAbsRax (.symbol 2), .callRax] := rfl
  have hTwice : pass (pass roundTripBeforeCall) =
      [.movAbsRdi (.value 1), .movAbsRax (.symbol 2), .callRax] := rfl
  rw [optimize_of_shorter (by decide), optimize_of_shorter (by decide),
    optimize_of_not_shorter (by decide), hTwice]

/-- A move to `rax` and back whose word is pushed after an addition. -/
def roundTripBeforePush : List Inst :=
  [.xmmToRax 0, .raxToXmm 0, .addSd, .pushRax, .ret]

/-- Without that condition the code may do something else: the pass drops the move although `rax`
is read behind the addition, and what `rax` held before is pushed instead of what `xmm0` held. -/
theorem optimize_drops_live_move :
    optimize roundTripBeforePush = [.addSd, .pushRax, .ret] ∧
    raxDead [.addSd, .pushRax, .ret] = false ∧
    ∃ (linkage : Linkage Unit) (m : Machine Unit),
      (execute linkage roundTripBeforePush m).map stack = some [0] ∧
      (execute linkage (optimize roundTripBeforePush) m).map stack = some [7] := by
  have hPass : pass roundTripBeforePush = [.addSd, .pushRax, .ret] := rfl
  have hOptimize : optimize roundTripBeforePush = [.addSd, .pushRax, .ret] := by
    rw [optimize_of_shorter (by decide), optimize_of_not_shorter (by decide), hPass]
  refine ⟨hOptimize, rfl, ⟨fun _ _ => 0, fun _ => pure 0, fun _ r => pure r⟩,
    ⟨{ Registers.zero with rax := 7 }, [], ()⟩, rfl, ?_⟩
  rw [hOptimize]
  rfl

end Machine

end Formula.Native
