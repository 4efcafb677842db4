import Formula.Proofs.Native.Frame
import Mathlib.Data.List.Induction
import Mathlib.Logic.Relation

/-!
# The counter of the generator

The generator emits one instruction after another and counts the words that it has pushed.
`Generator.Step` is one such step; the counter is never lowered at zero (`steps_emit`). Every
beginning of the code is the code of some state on the way (`exists_state`), and the counter of that
state is the number of values in the frame (`Generator.Counts`), which are all words of the frame
but the one that is reserved during a call (`frame_cases`), between an `alignStack` and its
`restoreStack` (`Disciplined.exists_alignStack`).
-/

namespace Formula.Native

open Relation

/-- Whether an instruction pushes or pops a value. -/
def Inst.movesValue : Inst → Bool
  | pushRax | popRax | pushMemRax => true
  | _ => false

namespace Generator

/-- One step of the generator: it numbers a symbol or emits an instruction. -/
inductive Step : Generator → Generator → Prop where
  | number {g g' : Generator} {span : Span} {symbol : Symbol} {id : SymbolId}
    (h : g.number span symbol = .ok (id, g')) : Step g g'
  | put (g : Generator) {i : Inst} (h : i.movesValue = false) : Step g (g.put i)
  | pushRax (g : Generator) : Step g g.pushRax
  | pushMemRax (g : Generator) : Step g { g.put .pushMemRax with depth := g.depth + 1 }
  /-- The counter is not zero when a value is popped. -/
  | popRax {g : Generator} (hDepth : 0 < g.depth) : Step g g.popRax

/-- Several steps of the generator. -/
abbrev Steps : Generator → Generator → Prop :=
  ReflTransGen Step

variable {g g' : Generator}

theorem steps_putAll (is : List Inst) (h : ∀ i ∈ is, i.movesValue = false) :
    ∀ g : Generator, g.Steps (g.putAll is) := by
  induction is with
  | nil => exact fun g => .refl
  | cons i is ih =>
    intro g
    obtain ⟨hHead, hTail⟩ := List.forall_mem_cons.mp h
    exact .head (.put g hHead) (ih hTail (g.put i))

theorem steps_popXmm (register : Nat) (hDepth : 0 < g.depth) : g.Steps (g.popXmm register) :=
  .tail (.single (.popRax hDepth)) (.put _ rfl)

theorem steps_pushXmm0 (g : Generator) : g.Steps g.pushXmm0 :=
  .tail (.single (.put g rfl)) (.pushRax _)

theorem steps_popArguments (count : Nat) : ∀ {g : Generator}, count ≤ g.depth →
    g.Steps (g.popArguments count) := by
  induction count with
  | zero => exact fun _ => .refl
  | succ count ih =>
    intro g hDepth
    have hLeft : count ≤ (g.popXmm count).depth := by
      simp only [popXmm, put_depth, popRax_depth]
      omega
    exact (steps_popXmm count (by omega)).trans (ih hLeft)

theorem steps_callFunction (id : SymbolId) {count : Nat} (hDepth : count ≤ g.depth) :
    g.Steps (g.callFunction id count) := by
  unfold callFunction
  dsimp only
  split_ifs
  · exact (steps_popArguments count hDepth).trans
      ((steps_putAll _ (by simp [Inst.movesValue]) _).trans (steps_pushXmm0 _))
  · exact (steps_popArguments count hDepth).trans
      ((steps_putAll _ (by simp [Inst.movesValue]) _).trans (steps_pushXmm0 _))

mutual

/-- The generator emits the code of an expression step by step. -/
theorem steps_emit : ∀ (e : Expr) {g g' : Generator}, g.symbols.Valid → g.emit e = .ok g' →
    g.Steps g'
  | .number _ value, g, g', _, h => by
    cases h
    exact .tail (.single (.put g rfl)) (.pushRax _)
  | .var span name, g, g', _, h => by
    rw [emit] at h
    obtain ⟨⟨id, g₁⟩, hNumber, h⟩ := Except.bind_eq_ok_iff.mp h
    cases h
    exact .tail (.tail (.single (.number hNumber)) (.put g₁ (i := .movAbsRax (.symbol id)) rfl))
      (.pushMemRax _)
  | .call span name args, g, g', hValid, h => by
    rw [emit] at h
    split_ifs at h
    obtain ⟨g₁, hArgs, h⟩ := Except.bind_eq_ok_iff.mp h
    obtain ⟨⟨id, g₂⟩, hNumber, h⟩ := Except.bind_eq_ok_iff.mp h
    cases h
    have hEmits := emitAll_lower args hValid hArgs
    have hNumbered := (Emits.number (.call ⟨name, args.length⟩) (hEmits.valid hValid) hNumber).1
    have hDepth : args.length ≤ g₂.depth := by
      rw [hNumbered.depth, hEmits.depth]
      omega
    exact (steps_emitAll args hValid hArgs).trans
      (.head (.number hNumber) (steps_callFunction id hDepth))
  | .unary _ .neg operand, g, g', hValid, h => by
    rw [emit] at h
    obtain ⟨g₁, hOperand, h⟩ := Except.bind_eq_ok_iff.mp h
    cases h
    have hDepth : 0 < g₁.depth := by
      rw [(emit_lower operand hValid hOperand).depth]
      omega
    exact (steps_emit operand hValid hOperand).trans ((steps_popXmm 0 hDepth).trans
      ((steps_putAll _ (by simp [Inst.movesValue]) _).trans (steps_pushXmm0 _)))
  | .unary _ .plus operand, g, g', hValid, h => steps_emit operand hValid h
  | .binary _ op left right, g, g', hValid, h => by
    rw [emit] at h
    obtain ⟨g₁, hLeft, h⟩ := Except.bind_eq_ok_iff.mp h
    obtain ⟨g₂, hRight, h⟩ := Except.bind_eq_ok_iff.mp h
    cases h
    have hEmits := emit_lower left hValid hLeft
    have hValid₁ := hEmits.valid hValid
    have hDepth : g₂.depth = g.depth + 2 := by
      rw [(emit_lower right hValid₁ hRight).depth, hEmits.depth]
    have hOp : (Inst.ofBinary op).movesValue = false := by
      cases op <;> rfl
    exact (steps_emit left hValid hLeft).trans ((steps_emit right hValid₁ hRight).trans
      ((steps_popXmm 1 (by omega)).trans ((steps_popXmm 0 (by simp [popXmm, hDepth])).trans
        (.head (.put _ hOp) (steps_pushXmm0 _)))))
  | .sequence _ first second, g, g', hValid, h => by
    rw [emit] at h
    obtain ⟨g₁, hFirst, h⟩ := Except.bind_eq_ok_iff.mp h
    have hEmits := emit_lower first hValid hFirst
    have hDepth : 0 < g₁.depth := by
      rw [hEmits.depth]
      omega
    exact (steps_emit first hValid hFirst).trans
      (.head (.popRax hDepth) (steps_emit second (hEmits.valid hValid) h))

theorem steps_emitAll : ∀ (es : List Expr) {g g' : Generator}, g.symbols.Valid →
    g.emitAll es = .ok g' → g.Steps g'
  | [], g, g', _, h => by
    cases h
    exact .refl
  | e :: es, g, g', hValid, h => by
    simp only [emitAll] at h
    split at h
    · cases h
    · rename_i g₁ hHead
      exact (steps_emit e hValid hHead).trans
        (steps_emitAll es ((emit_lower e hValid hHead).valid hValid) h)

end

/-! ## States and beginnings of the code -/

/-- A step emits at most one instruction. -/
theorem Step.code (h : Step g g') :
    g'.code.toList = g.code.toList ∨ ∃ i, g'.code.toList = g.code.toList ++ [i] := by
  cases h with
  | number h =>
    unfold Generator.number at h
    split at h
    · cases h
    · cases h
      exact .inl rfl
  | put => exact .inr ⟨_, put_code ..⟩
  | pushRax => exact .inr ⟨_, pushRax_code ..⟩
  | pushMemRax => exact .inr ⟨_, put_code ..⟩
  | popRax => exact .inr ⟨_, popRax_code ..⟩

theorem Step.code_prefix (h : Step g g') : g.code.toList <+: g'.code.toList := by
  rcases h.code with hCode | ⟨i, hCode⟩
  · rw [hCode]
  · rw [hCode]
    exact List.prefix_append ..

theorem Steps.code_prefix (h : g.Steps g') : g.code.toList <+: g'.code.toList := by
  induction h with
  | refl => exact List.prefix_rfl
  | tail _ hStep ih => exact ih.trans hStep.code_prefix

/-- A longer beginning of the code contains the next instruction. -/
theorem Step.code_prefix_of_ne (h : Step g g') {before code : List Inst}
    (hStart : g.code.toList <+: before) (hNe : before ≠ g.code.toList) (hEnd : before <+: code)
    (hCode : g'.code.toList <+: code) : g'.code.toList <+: before := by
  rcases List.prefix_or_prefix_of_prefix hEnd hCode with hShort | hLong
  · -- it is longer than the code of `g` by one instruction, so it is that of `g'`
    have hLength : g'.code.toList.length ≤ g.code.toList.length + 1 := by
      rcases h.code with hSame | ⟨i, hSame⟩
      · rw [hSame]
        omega
      · rw [hSame, List.length_append, List.length_singleton]
    have hLonger : g.code.toList.length < before.length :=
      Nat.lt_of_not_le fun hLe => hNe (hStart.eq_of_length_le hLe).symm
    rw [hShort.eq_of_length_le (by omega)]
  · exact hLong

/-- Every beginning of the code is the code of a state on the way. -/
theorem exists_state (h : g.Steps g') {before : List Inst} (hStart : g.code.toList <+: before)
    (hEnd : before <+: g'.code.toList) :
    ∃ state, g.Steps state ∧ Steps state g' ∧ state.code.toList = before := by
  induction h using ReflTransGen.head_induction_on with
  | refl => exact ⟨g', .refl, .refl, hStart.eq_of_length_le hEnd.length_le⟩
  | @head g g₁ hStep hSteps ih =>
    by_cases hSame : before = g.code.toList
    · exact ⟨g, .refl, .head hStep hSteps, hSame.symm⟩
    · have hNext := hStep.code_prefix_of_ne hStart hSame hEnd (Steps.code_prefix hSteps)
      obtain ⟨state, hBefore, hAfter, hCode⟩ := ih hNext
      exact ⟨state, .head hStep hBefore, hAfter, hCode⟩

/-! ## The counter -/

end Generator

theorem count_padding (f : Frame) : (Slot.padding :: f).count .value = f.count .value :=
  List.count_cons_of_ne (by decide)

/-- An instruction that moves no value leaves their number as it is. -/
theorem Inst.count_frame {i : Inst} {rest : List Inst} {f : Frame} (h : i.movesValue = false)
    (hAllowed : i.Allowed rest f) : (i.frame f).count .value = f.count .value := by
  cases i with
  | pushRax | popRax | pushMemRax => cases h
  | restoreStack =>
    obtain ⟨slots, rfl⟩ := List.head?_eq_some_iff.mp hAllowed
    exact (count_padding slots).symm
  | alignStack => exact count_padding f
  | _ => rfl

theorem count_frame_popRax {rest : List Inst} {f : Frame}
    (hAllowed : Inst.Allowed rest .popRax f) :
    (Inst.popRax.frame f).count .value = f.count .value - 1 := by
  obtain ⟨slots, rfl⟩ := List.head?_eq_some_iff.mp hAllowed
  rw [List.count_cons_self, Nat.add_sub_cancel]
  rfl

namespace Generator

variable {g g' : Generator}

/-- The counter is the number of values in the frame. -/
def Counts (g : Generator) : Prop :=
  g.depth = (frameAfter g.code.toList []).count .value

/-- The instruction that a step emits is allowed where it stands. -/
theorem allowed_of_code {i : Inst} {after : List Inst}
    (hCode : g'.code.toList = g.code.toList ++ [i])
    (hDisciplined : Disciplined [] (g'.code.toList ++ after)) :
    i.Allowed after (frameAfter g.code.toList []) := by
  rw [hCode, List.append_assoc] at hDisciplined
  exact hDisciplined.split.1

theorem Step.counts (h : Step g g') {after : List Inst}
    (hDisciplined : Disciplined [] (g'.code.toList ++ after)) (hCounts : g.Counts) :
    g'.Counts := by
  cases h with
  | number h =>
    unfold Generator.number at h
    split at h
    · cases h
    · cases h
      exact hCounts
  | put hMoves =>
    have hAllowed := allowed_of_code (put_code ..) hDisciplined
    rw [Counts, put_code, frameAfter_concat, Inst.count_frame hMoves hAllowed]
    exact hCounts
  | pushRax =>
    rw [Counts, pushRax_code, frameAfter_concat, pushRax_depth, hCounts]
    exact (List.count_cons_self ..).symm
  | pushMemRax =>
    rw [Counts, show Array.toList _ = g.code.toList ++ [.pushMemRax] from put_code ..,
      frameAfter_concat, hCounts]
    exact (List.count_cons_self ..).symm
  | popRax hDepth =>
    have hAllowed := allowed_of_code (popRax_code ..) hDisciplined
    rw [Counts, popRax_code, frameAfter_concat, popRax_depth, count_frame_popRax hAllowed, hCounts]

/-- The counter is right in every state on the way to disciplined code. -/
theorem Steps.counts (h : g.Steps g') (hCounts : g.Counts) {after : List Inst}
    (hDisciplined : Disciplined [] (g'.code.toList ++ after)) : g'.Counts := by
  induction h generalizing after with
  | refl => exact hCounts
  | @tail g₁ g₂ _ hStep ih =>
    refine hStep.counts hDisciplined ?_
    obtain ⟨more, hMore⟩ := hStep.code_prefix
    rw [← hMore, List.append_assoc] at hDisciplined
    exact ih hDisciplined

end Generator

/-! ## The reserved word -/

/-- A word is only ever reserved on top. -/
theorem Inst.not_mem_tail_frame {i : Inst} {rest : List Inst} {f : Frame} (h : i.Allowed rest f)
    (hTail : .padding ∉ f.tail) : .padding ∉ (i.frame f).tail := by
  have hPlain (hHead : f.head? ≠ some .padding) : Slot.padding ∉ f := by
    cases f with
    | nil => exact List.not_mem_nil
    | cons slot f =>
      rw [List.mem_cons, not_or]
      exact ⟨fun hSame => hHead (congrArg some hSame.symm), hTail⟩
  cases i with
  | pushRax | pushMemRax => exact hPlain h
  | alignStack => exact hPlain h.1
  | popRax | restoreStack => exact fun hMem => hTail (List.mem_of_mem_tail hMem)
  | _ => exact hTail

theorem Disciplined.not_mem_tail {before : List Inst} :
    ∀ {f : Frame} {i : Inst} {after : List Inst}, Disciplined f (before ++ i :: after) →
      .padding ∉ f.tail → .padding ∉ (frameAfter before f).tail := by
  induction before with
  | nil => exact fun _ hTail => hTail
  | cons first before ih =>
    intro f i after h hTail
    have hNext := Inst.not_mem_tail_frame h.1 hTail
    cases before with
    | nil => exact hNext
    | cons second before => exact ih (h.2 h.ne_ret) hNext

/-- A word is reserved only between an `alignStack` and its `restoreStack`. -/
theorem Disciplined.exists_alignStack {before : List Inst} : ∀ {after : List Inst},
    Disciplined [] (before ++ after) → (frameAfter before []).head? = some .padding →
      ∃ earlier between, before = earlier ++ .alignStack :: between ∧ .restoreStack ∉ between := by
  induction before using List.reverseRecOn with
  | nil => exact fun _ hHead => by cases hHead
  | append_singleton before i ih =>
    intro after h hHead
    rw [List.append_assoc] at h
    rw [frameAfter_concat] at hHead
    have hTail := Disciplined.not_mem_tail h List.not_mem_nil
    have hLater (hSame : (i.frame (frameAfter before [])) = frameAfter before [])
        (hRestore : i ≠ .restoreStack) : ∃ earlier between,
        before ++ [i] = earlier ++ .alignStack :: between ∧ .restoreStack ∉ between := by
      rw [hSame] at hHead
      obtain ⟨earlier, between, hBefore, hBetween⟩ := ih h hHead
      refine ⟨earlier, between ++ [i], by rw [hBefore, List.append_assoc]; rfl, ?_⟩
      simp [hBetween, hRestore.symm]
    cases i with
    | alignStack => exact ⟨before, [], rfl, List.not_mem_nil⟩
    | pushRax | pushMemRax => cases hHead
    | popRax | restoreStack => exact absurd (List.mem_of_mem_head? hHead) hTail
    | _ => exact hLater rfl (by simp)

/-- Such a frame consists of values, with one reserved word on top of them or none. -/
theorem frame_cases {f : Frame} (h : .padding ∉ f.tail) :
    f = values (f.count .value) ∨ f = .padding :: values (f.count .value) := by
  have hValues {f : Frame} (h : Slot.padding ∉ f) : f = values (f.count .value) := by
    have hAll : f = List.replicate f.length .value := by
      refine List.eq_replicate_of_mem fun slot hMem => ?_
      cases slot with
      | value => rfl
      | padding => exact absurd hMem h
    rw [hAll, List.count_replicate_self]
    rfl
  cases f with
  | nil => exact .inl rfl
  | cons slot f =>
    cases slot with
    | value => exact .inl (hValues (by simpa using h))
    | padding =>
      rw [count_padding]
      exact .inr (congrArg _ (hValues h))

/-- Every beginning of generated code was all of it at some point, when the counter was the number
of values in the frame. -/
theorem Generator.exists_counting_state {e : Expr} {g : Generator}
    (hEmit : Generator.empty.emit e = .ok g)
    (hDisciplined : Disciplined [] ((g.popXmm 0).put .ret).code.toList) {before after : List Inst}
    {i : Inst} (hSplit : ((g.popXmm 0).put .ret).code.toList = before ++ i :: after) :
    ∃ state : Generator, Steps .empty state ∧ state.Steps ((g.popXmm 0).put .ret) ∧
      state.code.toList = before ∧
      (frameAfter before [] = values state.depth ∨
        frameAfter before [] = .padding :: values state.depth ∧
          ∃ earlier between, before = earlier ++ .alignStack :: between ∧
            .restoreStack ∉ between) := by
  have hDepth : 0 < g.depth := by
    rw [(emit_lower e SymbolTable.valid_empty hEmit).depth]
    exact Nat.succ_pos _
  have hSteps : Steps .empty ((g.popXmm 0).put .ret) :=
    (steps_emit e SymbolTable.valid_empty hEmit).trans
      (.tail (steps_popXmm 0 hDepth) (.put _ rfl))
  have hEnd : before <+: ((g.popXmm 0).put .ret).code.toList := ⟨i :: after, hSplit.symm⟩
  obtain ⟨state, hBefore, hAfter, hState⟩ := exists_state hSteps (List.nil_prefix ..) hEnd
  rw [hSplit] at hDisciplined
  have hStateCode : Disciplined [] (state.code.toList ++ i :: after) := hState ▸ hDisciplined
  have hCounts := hBefore.counts rfl hStateCode
  rw [Counts, hState] at hCounts
  refine ⟨state, hBefore, hAfter, hState, ?_⟩
  rw [hCounts]
  refine (frame_cases (hDisciplined.not_mem_tail List.not_mem_nil)).imp_right fun hPadding => ?_
  exact ⟨hPadding, hDisciplined.exists_alignStack (by rw [hPadding]; rfl)⟩

end Formula.Native

namespace Formula.Object

open Native Relation

/-- Native code keeps the discipline of the stack, with and without the peephole pass, and its
generator counts the values on the stack. -/
theorem native_stack_discipline {optimize : Bool} {e : Expr} {object : Object}
    (hObject : nativeOfExpr? optimize e = .ok object) :
    ∃ code g, object.code = .native code ∧ Generator.empty.emit e = .ok g ∧
      -- the only `ret` is the last instruction, and the stack is that of the entry there
      (∃ body, code = body ++ [.ret] ∧ .ret ∉ body ∧ frameAfter body [] = []) ∧
      (∀ before i after, code = before ++ i :: after →
        let frame := frameAfter before []
        (i = .callRax → ∀ entry : UInt64, entry % 16 = 8 → stackPointer entry frame % 16 = 0) ∧
        (i = .popRax → frame.head? = some .value) ∧
        (i = .restoreStack → frame.head? = some .padding) ∧
        (i = .alignStack → ∃ id more, after = callSymbol id ++ .restoreStack :: more) ∧
        -- the frame is what the code has on the stack of any machine that runs it
        ∀ {σ : Type} (linkage : Linkage σ) (m : Machine σ), ∃ m' own,
          Machine.Reaches linkage before m m' ∧ m'.stack = own ++ m.stack ∧
            own.length = frame.length) ∧
      let last := (g.popXmm 0).put .ret
      code = (if optimize then Native.optimize last.code.toList else last.code.toList) ∧
      -- no step lowers the counter at zero; the word reserved for a call is no value, so it is not
      -- counted
      ∀ before i after, last.code.toList = before ++ i :: after →
        ∃ state : Generator, Generator.Steps .empty state ∧ state.Steps last ∧
          state.code.toList = before ∧
          (frameAfter before [] = values state.depth ∨
            frameAfter before [] = .padding :: values state.depth ∧
              ∃ earlier between, before = earlier ++ .alignStack :: between ∧
                .restoreStack ∉ between) := by
  obtain ⟨emitted, hEmitted, -, hCode⟩ := exists_emitted hObject
  have hGenerated := disciplined_of_ofExpr? hEmitted
  obtain ⟨g, hEmit, hLast⟩ := Except.bind_eq_ok_iff.mp hEmitted
  cases hLast
  have hDisciplined : Disciplined [] (if optimize then
      Native.optimize ((g.popXmm 0).put .ret).code.toList
      else ((g.popXmm 0).put .ret).code.toList) := by
    split_ifs
    · exact disciplined_optimize _ hGenerated
    · exact hGenerated
  refine ⟨_, g, hCode, hEmit, hDisciplined.exists_body, ?_, rfl, ?_⟩
  · intro before i after hSplit
    have hRest := hDisciplined
    rw [hSplit] at hRest
    have hAllowed := hRest.split.1
    refine ⟨?_, ?_, ?_, ?_, fun linkage m => hRest.reaches (List.nil_append m.stack).symm rfl⟩
    · rintro rfl entry hEntry
      exact stackPointer_aligned hEntry hAllowed
    · rintro rfl
      exact hAllowed
    · rintro rfl
      exact hAllowed
    · rintro rfl
      exact hAllowed.2
  · exact fun before i after hSplit => Generator.exists_counting_state hEmit hGenerated hSplit

/-- The code of `-f(x)` calls `f` on an aligned stack and keeps the word of its caller. -/
theorem stack_negatedCall : ∃ object code, nativeOfExpr? true negatedCall = .ok object ∧
    object.code = .native code ∧
    (∀ before after, code = before ++ .callRax :: after →
      stackPointer 0x1008 (frameAfter before []) % 16 = 0) ∧
    ∃ body, code = body ++ [.ret] ∧ .ret ∉ body ∧ frameAfter body [] = [] := by
  obtain ⟨emitted, hEmitted, -⟩ := ofExpr?_negatedCall
  have hObject : nativeOfExpr? true negatedCall =
      .ok ⟨.native (Native.optimize emitted.code), emitted.symbols⟩ := by
    rw [nativeOfExpr?, hEmitted]
    rfl
  obtain ⟨code, -, hCode, -, hReturns, hDiscipline, -⟩ := native_stack_discipline hObject
  exact ⟨_, code, hObject, hCode,
    fun before after hSplit => (hDiscipline before _ after hSplit).1 rfl 0x1008 rfl, hReturns⟩

end Formula.Object
