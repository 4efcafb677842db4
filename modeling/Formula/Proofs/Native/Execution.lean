import Formula.Native.Machine
import Formula.Proofs.Native.Lowering
import Mathlib.Data.List.Induction

/-!
# Running native code

The instructions of an expression push its value and leave the rest of the stack alone, whatever
the registers hold (`pushes_lower`). All values that are still needed lie on the stack, so a call
may overwrite every register. `Linkage.Realizes` says what a linkage has to do with the world that
the expression is evaluated in: an address that is read gives the variable, and a call takes its
environment from `rdi` and its arguments from `xmm0` on, and leaves its result in `xmm0`.
-/

namespace Formula.Native

variable {σ : Type}

/-- The addresses that `linkage` gives to the symbols of a table lead to what the symbols stand for
in `world`. A call may leave anything in the registers other than `xmm0`. -/
structure Linkage.Realizes (linkage : Linkage σ) (symbols : SymbolTable)
    (world : World σ UInt64) : Prop where
  load : ∀ id name, symbols.get? id = some (.ofVar name) → ∀ s,
    linkage.load (linkage.word id .address) s = world.read name s
  call : ∀ id signature, symbols.get? id = some (.ofSignature signature) →
    ∀ (r : Registers) (s : σ), r.rdi = linkage.word id .environment →
      ((linkage.call (linkage.word id .address) r s).1.getXmm 0,
          (linkage.call (linkage.word id .address) r s).2) =
        world.call signature (r.xmm.toList.take signature.arity) s

namespace Machine

variable {linkage : Linkage σ}

/-- Running `code` takes `m` to `m'`, whatever code follows. -/
def Reaches (linkage : Linkage σ) (code : List Inst) (m m' : Machine σ) : Prop :=
  ∀ rest, run linkage (code ++ rest) m = run linkage rest m'

theorem Reaches.append {code₁ code₂ : List Inst} {m m₁ m₂ : Machine σ}
    (h₁ : Reaches linkage code₁ m m₁) (h₂ : Reaches linkage code₂ m₁ m₂) :
    Reaches linkage (code₁ ++ code₂) m m₂ := by
  intro rest
  rw [List.append_assoc, h₁, h₂]

/-! ## Arguments -/

theorem toList_setXmm (r : Registers) (register : UInt8) (w : UInt64) :
    (r.setXmm register w).xmm.toList =
      r.xmm.toList.set (Registers.index register) w := by
  simp [Registers.setXmm, Vector.toList_set]

theorem toList_getXmm (r : Registers) (register : UInt8) :
    r.xmm.toList[(Registers.index register).val]? = some (r.getXmm register) := by
  simp [Registers.getXmm]

theorem getXmm_setXmm (r : Registers) (register other : UInt8) (w : UInt64) :
    (r.setXmm register w).getXmm other =
      if Registers.index register = Registers.index other then w else r.getXmm other := by
  simp [Registers.getXmm, Registers.setXmm, Vector.getElem_set, Fin.ext_iff]

/-- A register among those that hold the first words. -/
theorem getXmm_eq {r : Registers} {words : List UInt64} {register : UInt8} {word : UInt64}
    (h : r.xmm.toList.take words.length = words)
    (hWord : words[(Registers.index register).val]? = some word) : r.getXmm register = word := by
  have hLt := (List.getElem?_eq_some_iff.mp hWord).1
  rw [← h, List.getElem?_take_of_lt hLt, toList_getXmm] at hWord
  exact Option.some.inj hWord

/-- Words on the stack are popped into the registers that their places in the list have. -/
theorem reaches_pops (stack : List UInt64) : ∀ (words : List UInt64), words.length ≤ 8 →
    ∀ (r : Registers) (s : σ), ∃ r',
      Reaches linkage (pops words.length) ⟨r, words.reverse ++ stack, s⟩ ⟨r', stack, s⟩ ∧
        r'.xmm.toList = words ++ r.xmm.toList.drop words.length := by
  intro words
  induction words using List.reverseRecOn with
  | nil => exact fun _ r s => ⟨r, fun _ => rfl, rfl⟩
  | append_singleton words word ih =>
    intro hLength r s
    rw [List.length_append, List.length_singleton] at hLength ⊢
    -- the last word goes into the register after those of the others, which do not touch it
    obtain ⟨r', hReaches, hXmm⟩ := ih (by omega)
      ({ r with rax := word }.setXmm (UInt8.ofNat words.length) word) s
    have hPop : Reaches linkage [.popRax, .raxToXmm (UInt8.ofNat words.length)]
        ⟨r, (words ++ [word]).reverse ++ stack, s⟩
        ⟨{ r with rax := word }.setXmm (UInt8.ofNat words.length) word,
          words.reverse ++ stack, s⟩ := by
      intro rest
      rw [List.reverse_concat]
      rfl
    have hIndex : (Registers.index (UInt8.ofNat words.length)).val = words.length := by
      simp [Registers.index]
      omega
    have hSize : words.length < r.xmm.toList.length := by
      rw [Vector.length_toList]
      omega
    have hTake : (r.xmm.toList.take words.length).length = words.length :=
      List.length_take_of_le (Nat.le_of_lt hSize)
    refine ⟨r', hPop.append hReaches, ?_⟩
    rw [hXmm, toList_setXmm, hIndex, List.set_eq_take_append_cons_drop]
    simp only [if_pos hSize]
    rw [List.drop_append_of_le_length (Nat.le_of_eq hTake.symm), List.drop_of_length_le
      (Nat.le_of_eq hTake), List.append_assoc]
    rfl

/-! ## Expressions -/

/-- After the code, `words` lie on the stack, the last on top, and the world is in state `s`. -/
def Pushes (linkage : Linkage σ) (code : List Inst) (m : Machine σ) (words : List UInt64) (s : σ) :
    Prop :=
  ∃ r, Reaches linkage code m ⟨r, words.reverse ++ m.stack, s⟩

/-- The call of a symbol leaves the result in `xmm0` and the stack as it was. -/
theorem reaches_alignedCall {symbols : SymbolTable} {world : World σ UInt64}
    (hL : linkage.Realizes symbols world) {id : SymbolId} {signature : Signature}
    (hId : symbols.get? id = some (.ofSignature signature)) (depth : Nat) (r : Registers)
    (stack : List UInt64) (s : σ) :
    ∃ r', Reaches linkage (alignedCall depth id) ⟨r, stack, s⟩
        ⟨r', stack, (world.call signature (r.xmm.toList.take signature.arity) s).2⟩ ∧
      r'.getXmm 0 = (world.call signature (r.xmm.toList.take signature.arity) s).1 := by
  have hCall := hL.call id signature hId
    { r with rdi := linkage.word id .environment, rax := linkage.word id .address } s rfl
  rw [← hCall]
  refine ⟨_, ?_, rfl⟩
  unfold alignedCall
  split_ifs
  · exact fun _ => rfl
  · exact fun _ => rfl

/-- Words that have been pushed are popped into registers. -/
theorem Pushes.pops {code : List Inst} {m : Machine σ} {words : List UInt64} {s : σ}
    (h : Pushes linkage code m words s) (hLength : words.length ≤ 8) :
    ∃ r, Reaches linkage (code ++ Native.pops words.length) m ⟨r, m.stack, s⟩ ∧
      r.xmm.toList.take words.length = words := by
  obtain ⟨r, hReaches⟩ := h
  obtain ⟨r', hPops, hXmm⟩ := reaches_pops m.stack words hLength r s
  refine ⟨r', hReaches.append hPops, ?_⟩
  rw [hXmm, List.take_left]

theorem Pushes.append {code₁ code₂ : List Inst} {m : Machine σ} {words₁ words₂ : List UInt64}
    {s₁ s₂ : σ} (h₁ : Pushes linkage code₁ m words₁ s₁)
    (h₂ : ∀ r, Pushes linkage code₂ ⟨r, words₁.reverse ++ m.stack, s₁⟩ words₂ s₂) :
    Pushes linkage (code₁ ++ code₂) m (words₁ ++ words₂) s₂ := by
  obtain ⟨r₁, hReaches₁⟩ := h₁
  obtain ⟨r₂, hReaches₂⟩ := h₂ r₁
  refine ⟨r₂, ?_⟩
  rw [List.reverse_append, List.append_assoc]
  exact hReaches₁.append hReaches₂

/-- Code that leaves a word in `xmm0` pushes it. -/
theorem pushes_of_reaches {code : List Inst} {m : Machine σ} {r : Registers} {word : UInt64} {s : σ}
    (h : Reaches linkage code m ⟨r, m.stack, s⟩) (hWord : r.getXmm 0 = word) :
    Pushes linkage (code ++ pushResult) m [word] s := by
  subst hWord
  exact ⟨_, h.append fun _ => rfl⟩

/-- The registers after the sign of `xmm0` has been inverted. -/
def negated (r : Registers) : Registers :=
  let r := { r with rax := signBit }.setXmm 1 signBit
  r.setXmm 0 (r.getXmm 0 ^^^ r.getXmm 1)

theorem getXmm_negated (r : Registers) : (negated r).getXmm 0 = r.getXmm 0 ^^^ signBit := by
  simp only [negated, getXmm_setXmm]
  rfl

theorem reaches_ofBinary (op : BinaryOp) (r : Registers) (stack : List UInt64) (s : σ) :
    Reaches linkage [.ofBinary op] ⟨r, stack, s⟩ ⟨r.arithmetic op.apply, stack, s⟩ := by
  cases op <;> exact fun _ => rfl

mutual

/-- The code of an expression pushes its value. -/
theorem pushes_lower {symbols : SymbolTable} {world : World σ UInt64}
    (hValid : symbols.Valid) (hL : linkage.Realizes symbols world) :
    ∀ (e : Expr), e.CallsWithin maxArity →
      (∀ name ∈ e.references, symbols.Knows name.symbol) → ∀ (depth : Nat) (m : Machine σ),
      Pushes linkage (lower symbols.number depth e) m [(e.eval .word world m.state).1]
        (e.eval .word world m.state).2
  | .number _ value, _, _, depth, m => ⟨_, fun _ => rfl⟩
  | .var _ name, _, hKnows, depth, m => by
    have hId := hValid.get?_number (hKnows (.var name) (List.mem_singleton.mpr rfl))
    refine ⟨{ m.registers with
      rax := linkage.word (symbols.number (.ofVar name)) .address }, fun rest => ?_⟩
    rw [Expr.eval, ← hL.load _ name hId]
    rfl
  | .call _ name args, hArity, hKnows, depth, m => by
    have hId := hValid.get?_number (hKnows (.call ⟨name, args.length⟩)
      (List.mem_append_right _ (List.mem_singleton.mpr rfl)))
    -- everything that is still needed lies on the stack, so the call may clobber the registers
    have hArgs := pushes_lowerAll hValid hL args hArity.2
      (fun name hName => hKnows name (List.mem_append_left _ hName)) depth m
    have hLength := Expr.length_evalAll .word world args m.state
    obtain ⟨r, hPopped, hXmm⟩ := hArgs.pops (by rw [hLength]; exact hArity.1)
    obtain ⟨r', hCalled, hResult⟩ := reaches_alignedCall hL hId depth r m.stack
      (Expr.evalAll .word world args m.state).2
    rw [hLength] at hPopped hXmm
    rw [hXmm] at hCalled hResult
    rw [lower, ← List.append_assoc, ← List.append_assoc]
    exact pushes_of_reaches (hPopped.append hCalled) hResult
  | .unary _ .neg operand, hArity, hKnows, depth, m => by
    have hOperand := pushes_lower hValid hL operand hArity hKnows depth m
    obtain ⟨r, hPopped, hXmm⟩ := hOperand.pops (by simp)
    have hNegate : Reaches linkage [.movAbsRax (.value signBit), .raxToXmm 1, .xorPd]
        ⟨r, m.stack, (operand.eval .word world m.state).2⟩
        ⟨negated r, m.stack, (operand.eval .word world m.state).2⟩ := fun _ => rfl
    rw [lower, ← List.append_assoc, ← List.append_assoc]
    refine pushes_of_reaches (hPopped.append hNegate) ?_
    rw [getXmm_negated, getXmm_eq hXmm rfl]
    rfl
  | .unary _ .plus operand, hArity, hKnows, depth, m =>
    pushes_lower hValid hL operand hArity hKnows depth m
  | .binary _ op left right, hArity, hKnows, depth, m => by
    have hLeft := pushes_lower hValid hL left hArity.1
      (fun name hName => hKnows name (List.mem_append_left _ hName)) depth m
    have hRight (r : Registers) : Pushes linkage (lower symbols.number (depth + 1) right)
        ⟨r, (left.eval .word world m.state).1 :: m.stack, (left.eval .word world m.state).2⟩
        [(right.eval .word world (left.eval .word world m.state).2).1]
        (right.eval .word world (left.eval .word world m.state).2).2 :=
      pushes_lower hValid hL right hArity.2
        (fun name hName => hKnows name (List.mem_append_right _ hName)) (depth + 1) _
    have hBoth := hLeft.append hRight
    obtain ⟨r, hPopped, hXmm⟩ := hBoth.pops (by simp)
    have hOperate : Reaches linkage _ _ _ := reaches_ofBinary op r m.stack
      (right.eval .word world (left.eval .word world m.state).2).2
    rw [lower, ← List.append_assoc, ← List.append_assoc, ← List.singleton_append,
      ← List.append_assoc]
    refine pushes_of_reaches (hPopped.append hOperate) ?_
    rw [Registers.arithmetic, getXmm_setXmm, if_pos rfl, getXmm_eq hXmm rfl, getXmm_eq hXmm rfl]
    rfl
  | .sequence _ first second, hArity, hKnows, depth, m => by
    obtain ⟨r, hFirst⟩ := pushes_lower hValid hL first hArity.1
      (fun name hName => hKnows name (List.mem_append_left _ hName)) depth m
    -- the first value is popped into `rax`, which nothing reads
    obtain ⟨r', hSecond⟩ := pushes_lower hValid hL second hArity.2
      (fun name hName => hKnows name (List.mem_append_right _ hName)) depth
      ⟨{ r with rax := (first.eval .word world m.state).1 }, m.stack,
        (first.eval .word world m.state).2⟩
    refine ⟨r', hFirst.append fun rest => ?_⟩
    exact hSecond rest

theorem pushes_lowerAll {symbols : SymbolTable} {world : World σ UInt64}
    (hValid : symbols.Valid) (hL : linkage.Realizes symbols world) :
    ∀ (es : List Expr), Expr.CallsWithinAll maxArity es →
      (∀ name ∈ Expr.referencesAll es, symbols.Knows name.symbol) →
      ∀ (depth : Nat) (m : Machine σ),
      Pushes linkage (lowerAll symbols.number depth es) m (Expr.evalAll .word world es m.state).1
        (Expr.evalAll .word world es m.state).2
  | [], _, _, depth, m => ⟨_, fun _ => rfl⟩
  | e :: es, hArity, hKnows, depth, m => by
    have hHead := pushes_lower hValid hL e hArity.1
      (fun name hName => hKnows name (List.mem_append_left _ hName)) depth m
    exact hHead.append fun r => pushes_lowerAll hValid hL es hArity.2
      (fun name hName => hKnows name (List.mem_append_right _ hName)) (depth + 1) ⟨r, _, _⟩

end

end Machine

end Formula.Native
