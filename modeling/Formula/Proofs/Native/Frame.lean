import Formula.Proofs.Native.Value

/-!
# The stack of native code

The frame of native code is what the code has put on the stack since its entry. `Disciplined` code
pops only values that it has pushed, releases only words that it has reserved, reserves a word for
one call only, calls with an odd number of words on the stack, and returns with none. Generated code
is disciplined (`disciplined_of_ofExpr?`), and the peephole pass keeps it so
(`disciplined_optimize`). The frame is what a machine that runs the code has on its stack above the
words of its caller (`Disciplined.reaches`), so the stack pointer is aligned at every call
(`stackPointer_aligned`).
-/

namespace Formula.Native

/-- A word that code has put on the stack. -/
inductive Slot where
  /-- A value that has been pushed. -/
  | value
  /-- A word that has been reserved to align the stack. -/
  | padding
deriving DecidableEq

/-- The words that code has put on the stack since its entry, the top first. -/
abbrev Frame := List Slot

namespace Inst

/-- The frame after an instruction. -/
def frame : Inst → Frame → Frame
  | pushRax, f | pushMemRax, f => .value :: f
  | alignStack, f => .padding :: f
  | popRax, f | restoreStack, f => f.tail
  | _, f => f

/-- Whether an instruction may be executed on a frame, in front of `rest`. -/
def Allowed (rest : List Inst) : Inst → Frame → Prop
  | pushRax, f | pushMemRax, f => f.head? ≠ some .padding
  | popRax, f => f.head? = some .value
  | alignStack, f => f.head? ≠ some .padding ∧
      ∃ id more, rest = callSymbol id ++ restoreStack :: more
  | restoreStack, f => f.head? = some .padding
  | callRax, f => f.length % 2 = 1
  | ret, f => f = [] ∧ rest = []
  | _, _ => True

/-- Whether an instruction only moves and combines registers. -/
def isStill : Inst → Bool
  | movAbsRax _ | movAbsRdi _ | raxToXmm _ | xmmToRax _ => true
  | addSd | subSd | mulSd | divSd | xorPd => true
  | _ => false

end Inst

/-- The frame after several instructions. -/
def frameAfter (code : List Inst) (f : Frame) : Frame :=
  code.foldl (fun f i => i.frame f) f

theorem frameAfter_concat (code : List Inst) (i : Inst) (f : Frame) :
    frameAfter (code ++ [i]) f = i.frame (frameAfter code f) :=
  List.foldl_concat ..

/-- Code that returns and, from the frame `f` on, executes only what is allowed. -/
def Disciplined (f : Frame) : List Inst → Prop
  | [] => False
  | i :: rest => i.Allowed rest f ∧ (i ≠ .ret → Disciplined (i.frame f) rest)

/-! ## Generated code -/

/-- Code that takes the frame `f` to `f'`, whatever code follows. -/
def Leads (code : List Inst) (f f' : Frame) : Prop :=
  ∀ rest, Disciplined f' rest → Disciplined f (code ++ rest)

namespace Leads

variable {code code₁ code₂ : List Inst} {f f₁ f₂ : Frame}

theorem nil (f : Frame) : Leads [] f f :=
  fun _ h => h

theorem append (h₁ : Leads code₁ f f₁) (h₂ : Leads code₂ f₁ f₂) : Leads (code₁ ++ code₂) f f₂ := by
  intro rest hRest
  rw [List.append_assoc]
  exact h₁ _ (h₂ _ hRest)

/-- One instruction that is allowed whatever follows. -/
theorem single {i : Inst} (hAllowed : ∀ rest, i.Allowed rest f) : Leads [i] f (i.frame f) :=
  fun rest hRest => ⟨hAllowed rest, fun _ => hRest⟩

theorem still {i : Inst} (h : i.isStill = true) : Leads [i] f f := by
  intro rest hRest
  cases i with
  | pushRax | popRax | pushMemRax | callRax | ret | alignStack | restoreStack => cases h
  | _ => exact ⟨trivial, fun _ => hRest⟩

end Leads

/-- A frame of values. -/
def values (count : Nat) : Frame :=
  List.replicate count .value

theorem head?_values (count : Nat) : (values count).head? ≠ some .padding := by
  cases count with
  | zero => exact nofun
  | succ count => exact nofun

theorem leads_push {i : Inst} (hPush : i = .pushRax ∨ i = .pushMemRax) (depth : Nat) :
    Leads [i] (values depth) (values (depth + 1)) := by
  rcases hPush with rfl | rfl
  · exact .single fun _ => head?_values depth
  · exact .single fun _ => head?_values depth

theorem leads_popRax (depth : Nat) : Leads [.popRax] (values (depth + 1)) (values depth) :=
  .single fun _ => rfl

theorem leads_pops (depth count : Nat) :
    Leads (pops count) (values (depth + count)) (values depth) := by
  induction count with
  | zero => exact .nil _
  | succ count ih =>
    exact (leads_popRax (depth + count)).append ((Leads.still rfl).append ih)

theorem leads_pushResult (depth : Nat) :
    Leads pushResult (values depth) (values (depth + 1)) :=
  (Leads.still rfl).append (leads_push (.inl rfl) depth)

/-- A word is reserved where the number of words is even. -/
theorem leads_alignedCall (depth : Nat) (id : SymbolId) :
    Leads (alignedCall depth id) (values depth) (values depth) := by
  intro rest hRest
  unfold alignedCall
  split_ifs with hEven
  · have hOdd : (Slot.padding :: values depth).length % 2 = 1 := by
      simp only [values, List.length_cons, List.length_replicate]
      omega
    have hAlign : Inst.Allowed (callSymbol id ++ .restoreStack :: rest) .alignStack
        (values depth) := ⟨head?_values depth, id, rest, rfl⟩
    exact ⟨hAlign, fun _ => ⟨trivial, fun _ => ⟨trivial, fun _ => ⟨hOdd, fun _ =>
      ⟨rfl, fun _ => hRest⟩⟩⟩⟩⟩
  · have hOdd : (values depth).length % 2 = 1 := by
      simp only [values, List.length_replicate]
      omega
    exact ⟨trivial, fun _ => ⟨trivial, fun _ => ⟨hOdd, fun _ => hRest⟩⟩⟩

theorem leads_ofBinary (op : BinaryOp) (f : Frame) : Leads [.ofBinary op] f f := by
  cases op <;> exact .still rfl

mutual

/-- The code of an expression pushes one value. -/
theorem leads_lower (number : Symbol → SymbolId) : ∀ (e : Expr) (depth : Nat),
    Leads (lower number depth e) (values depth) (values (depth + 1))
  | .number _ _, depth =>
    (Leads.still rfl).append (leads_push (.inl rfl) depth)
  | .var _ _, depth =>
    (Leads.still rfl).append (leads_push (.inr rfl) depth)
  | .call _ _ args, depth =>
    (leads_lowerAll number args depth).append ((leads_pops depth args.length).append
      ((leads_alignedCall depth _).append (leads_pushResult depth)))
  | .unary _ .neg operand, depth => by
    have hNegate : Leads [.movAbsRax (.value signBit), .raxToXmm 1, .xorPd] (values depth)
        (values depth) := (Leads.still rfl).append ((Leads.still rfl).append (.still rfl))
    exact (leads_lower number operand depth).append ((leads_pops depth 1).append
      (hNegate.append (leads_pushResult depth)))
  | .unary _ .plus operand, depth => leads_lower number operand depth
  | .binary _ op left right, depth =>
    (leads_lower number left depth).append ((leads_lower number right (depth + 1)).append
      ((leads_pops depth 2).append ((leads_ofBinary op _).append (leads_pushResult depth))))
  | .sequence _ first second, depth =>
    (leads_lower number first depth).append
      ((leads_popRax depth).append (leads_lower number second depth))

theorem leads_lowerAll (number : Symbol → SymbolId) : ∀ (es : List Expr) (depth : Nat),
    Leads (lowerAll number depth es) (values depth) (values (depth + es.length))
  | [], depth => .nil _
  | e :: es, depth => by
    have hTail := leads_lowerAll number es (depth + 1)
    rw [Nat.add_right_comm] at hTail
    exact (leads_lower number e depth).append hTail

end

/-- The code of a whole expression is disciplined. -/
theorem disciplined_of_ofExpr? {e : Expr} {emitted : Emitted} (h : ofExpr? e = .ok emitted) :
    Disciplined [] emitted.code := by
  rw [(ofExpr?_ok h).2.2]
  refine leads_lower emitted.symbols.number e 0 _ (leads_pops 0 1 _ ⟨⟨rfl, rfl⟩, ?_⟩)
  exact fun hNe => absurd rfl hNe

/-! ## The peephole pass -/

/-- The pass never drops an instruction that does not begin a pair. -/
theorem pass_cons {i : Inst} (hPush : i ≠ .pushRax) (hMove : ∀ register, i ≠ .xmmToRax register)
    (rest : List Inst) : pass (i :: rest) = i :: pass rest := by
  cases rest with
  | nil => rfl
  | cons j rest =>
    rw [pass, if_neg]
    intro hRedundant
    rcases redundant_cases hRedundant with ⟨rfl, -⟩ | ⟨register, rfl, -⟩
    · exact hPush rfl
    · exact hMove register rfl

/-- What follows a reserved word is not dropped. -/
theorem pass_callSymbol (id : SymbolId) (more : List Inst) :
    pass (callSymbol id ++ .restoreStack :: more) =
      callSymbol id ++ .restoreStack :: pass more := by
  simp only [callSymbol, List.cons_append, List.nil_append, pass_cons, ne_eq, reduceCtorEq,
    not_false_eq_true, implies_true]

theorem Inst.Allowed.pass {i : Inst} {rest : List Inst} {f : Frame} (h : i.Allowed rest f) :
    i.Allowed (pass rest) f := by
  cases i with
  | alignStack =>
    obtain ⟨hHead, id, more, rfl⟩ := h
    exact ⟨hHead, id, Native.pass more, pass_callSymbol id more⟩
  | ret =>
    obtain ⟨hFrame, rfl⟩ := h
    exact ⟨hFrame, rfl⟩
  | _ => exact h

/-- The pass keeps code disciplined. -/
theorem disciplined_pass (code : List Inst) {f : Frame} (h : Disciplined f code) :
    Disciplined f (pass code) := by
  induction code using pass.induct generalizing f with
  | case1 => exact h
  | case2 i => exact h
  | case3 i j rest hRedundant ih =>
    rw [pass, if_pos hRedundant]
    obtain ⟨-, hSecond⟩ := h
    rcases redundant_cases hRedundant with ⟨rfl, rfl⟩ | ⟨register, rfl, rfl⟩
    · exact ih ((hSecond (by simp)).2 (by simp))
    · exact ih ((hSecond (by simp)).2 (by simp))
  | case4 i j rest hRedundant ih =>
    rw [pass, if_neg hRedundant]
    exact ⟨h.1.pass, fun hNe => ih (h.2 hNe)⟩

theorem disciplined_optimize (code : List Inst) {f : Frame} (h : Disciplined f code) :
    Disciplined f (optimize code) := by
  induction code using optimize.induct with
  | case1 code hShorter ih =>
    rw [optimize, if_pos hShorter]
    exact ih (disciplined_pass code h)
  | case2 code hShorter =>
    rw [optimize, if_neg hShorter]
    exact h

/-! ## What disciplined code does -/

namespace Disciplined

variable {f : Frame}

/-- Code that goes on does not return yet. -/
theorem ne_ret {i j : Inst} {rest : List Inst} (h : Disciplined f (i :: j :: rest)) : i ≠ .ret := by
  rintro rfl
  cases h.1.2

/-- Each instruction is allowed on the frame that the code before it leaves. -/
theorem split {before : List Inst} : ∀ {f : Frame} {i : Inst} {after : List Inst},
    Disciplined f (before ++ i :: after) → Disciplined (frameAfter before f) (i :: after) := by
  induction before with
  | nil => exact fun h => h
  | cons first before ih =>
    intro f i after h
    cases before with
    | nil => exact h.2 h.ne_ret
    | cons second before => exact ih (h.2 h.ne_ret)

/-- The code ends with its only `ret`, and the frame is empty there. -/
theorem exists_body {code : List Inst} : ∀ {f : Frame}, Disciplined f code →
    ∃ body, code = body ++ [.ret] ∧ .ret ∉ body ∧ frameAfter body f = [] := by
  induction code with
  | nil => exact fun h => h.elim
  | cons i rest ih =>
    intro f h
    by_cases hRet : i = .ret
    · subst hRet
      obtain ⟨⟨hFrame, hRest⟩, -⟩ := h
      exact ⟨[], by rw [hRest]; rfl, nofun, hFrame⟩
    · obtain ⟨body, rfl, hBody, hFrame⟩ := ih (h.2 hRet)
      exact ⟨i :: body, rfl, by simp [hBody, Ne.symm hRet], hFrame⟩

end Disciplined

namespace Machine

variable {σ : Type} {linkage : Linkage σ}

/-- An instruction that is allowed does to the stack what it does to the frame. -/
theorem step_of_allowed (linkage : Linkage σ) {i : Inst} {rest : List Inst} {f : Frame}
    (h : i.Allowed rest f) {m : Machine σ} {own base : List UInt64}
    (hStack : m.stack = own ++ base) (hLength : own.length = f.length) :
    ∃ m' own', m.step linkage i = some m' ∧ m'.stack = own' ++ base ∧
      own'.length = (i.frame f).length := by
  cases i with
  | pushRax =>
    exact ⟨_, m.registers.rax :: own, rfl, congrArg _ hStack, congrArg Nat.succ hLength⟩
  | pushMemRax =>
    exact ⟨_, (linkage.load m.registers.rax m.state).1 :: own, rfl, congrArg _ hStack,
      congrArg Nat.succ hLength⟩
  | alignStack => exact ⟨_, 0 :: own, rfl, congrArg _ hStack, congrArg Nat.succ hLength⟩
  | popRax =>
    -- the frame is not empty, so the word on top is the code's own
    cases f with
    | nil => cases h
    | cons slot f =>
      obtain ⟨word, own, rfl⟩ := List.exists_cons_of_length_eq_add_one hLength
      rw [List.cons_append] at hStack
      simp only [step, hStack]
      exact ⟨_, own, rfl, rfl, Nat.succ.inj hLength⟩
  | restoreStack =>
    cases f with
    | nil => cases h
    | cons slot f =>
      obtain ⟨word, own, rfl⟩ := List.exists_cons_of_length_eq_add_one hLength
      rw [List.cons_append] at hStack
      simp only [step, hStack]
      exact ⟨_, own, rfl, rfl, Nat.succ.inj hLength⟩
  | _ => exact ⟨_, own, rfl, hStack, hLength⟩

/-- What one instruction does, whatever code follows. -/
theorem reaches_of_step {i : Inst} {m m' : Machine σ} (hRet : i ≠ .ret)
    (h : m.step linkage i = some m') : Reaches linkage [i] m m' := by
  intro rest
  rw [List.singleton_append, run_cons, if_neg hRet, h]
  rfl

end Machine

/-- A machine that runs disciplined code up to some instruction has as many words on its stack,
above those of its caller, as there are in the frame. -/
theorem Disciplined.reaches {σ : Type} {linkage : Linkage σ} {before : List Inst} :
    ∀ {f : Frame} {i : Inst} {after : List Inst}, Disciplined f (before ++ i :: after) →
      ∀ {m : Machine σ} {own base : List UInt64}, m.stack = own ++ base → own.length = f.length →
      ∃ m' own', Machine.Reaches linkage before m m' ∧ m'.stack = own' ++ base ∧
        own'.length = (frameAfter before f).length := by
  induction before with
  | nil =>
    intro f i after _ m own base hStack hLength
    exact ⟨m, own, fun _ => rfl, hStack, hLength⟩
  | cons first before ih =>
    intro f i after h m own base hStack hLength
    have hRet : first ≠ .ret := by
      cases before with
      | nil => exact h.ne_ret
      | cons second before => exact h.ne_ret
    obtain ⟨m₁, own₁, hStep, hStack₁, hLength₁⟩ :=
      Machine.step_of_allowed linkage h.1 hStack hLength
    obtain ⟨m', own', hReaches, hStack', hLength'⟩ := ih (h.2 hRet) hStack₁ hLength₁
    exact ⟨m', own', (Machine.reaches_of_step hRet hStep).append hReaches, hStack', hLength'⟩

/-! ## Alignment -/

/-- The stack pointer when the frame lies above the word that it points at on entry. -/
def stackPointer (entry : UInt64) (f : Frame) : UInt64 :=
  entry - 8 * UInt64.ofNat f.length

/-- With an odd number of words, a pointer that is half a step off on entry is aligned. -/
theorem stackPointer_aligned {entry : UInt64} {f : Frame} (hEntry : entry % 16 = 8)
    (hOdd : f.length % 2 = 1) : stackPointer entry f % 16 = 0 := by
  rw [← UInt64.toNat_inj] at hEntry ⊢
  simp only [stackPointer, UInt64.toNat_mod, UInt64.toNat_sub, UInt64.toNat_mul,
    UInt64.toNat_ofNat', UInt64.reduceToNat] at hEntry ⊢
  omega

end Formula.Native
