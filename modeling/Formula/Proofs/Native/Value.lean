import Formula.Object
import Formula.Proofs.Native.Peephole

/-!
# The value of native code

Native code computes what evaluation from left to right gives, with and without the peephole pass,
on any stack and with anything in the registers.
-/

namespace Formula.Object

open Native

variable {σ : Type} {linkage : Linkage σ}

/-- Code of a whole expression up to its `ret`. -/
theorem run_ofExpr? {e : Expr} {emitted : Emitted} (h : Native.ofExpr? e = .ok emitted)
    {world : World σ UInt64} (hL : linkage.Realizes emitted.symbols world) (m : Machine σ) :
    ∃ r, Machine.run linkage emitted.code m =
        some ⟨r, m.stack, (e.eval .word world m.state).2⟩ ∧
      r.getXmm 0 = (e.eval .word world m.state).1 := by
  obtain ⟨hArity, hSymbols, hCode⟩ := ofExpr?_ok h
  obtain ⟨hValid, -, hKnows, -⟩ := SymbolTable.internAll_some SymbolTable.valid_empty hSymbols
  have hPushes := Machine.pushes_lower hValid hL e hArity
    (fun name hName => hKnows _ (List.mem_map_of_mem hName)) 0 m
  obtain ⟨r, hReaches, hXmm⟩ := hPushes.pops (by simp)
  refine ⟨r, ?_, Machine.getXmm_eq hXmm rfl⟩
  rw [hCode, ← List.append_assoc]
  exact hReaches [.ret]

/-- The peephole pass changes neither the value nor what is read and called. -/
theorem run_optimized {e : Expr} {emitted : Emitted} (h : Native.ofExpr? e = .ok emitted)
    {world : World σ UInt64} (hL : linkage.Realizes emitted.symbols world) (m : Machine σ) :
    ∃ r, Machine.run linkage (Native.optimize emitted.code) m =
        some ⟨r, m.stack, (e.eval .word world m.state).2⟩ ∧
      r.getXmm 0 = (e.eval .word world m.state).1 := by
  obtain ⟨r, hRun, hValue⟩ := run_ofExpr? h hL m
  have hFed : Fed false emitted.code := by
    rw [(ofExpr?_ok h).2.2]
    exact ((feeds_lower _ 0 e).append ((feeds_pops 1).append feeds_ret)).fed
  obtain ⟨⟨r', stack, state⟩, hRun', hAgree⟩ := Machine.run_optimize_fed _ hFed hRun
  obtain ⟨-, hXmm, -, rfl, rfl⟩ := hAgree
  refine ⟨r', hRun', ?_⟩
  rw [← hValue, Registers.getXmm, Registers.getXmm, hXmm]

/-- Code is generated and then optimized, or not. -/
theorem exists_emitted {optimize : Bool} {e : Expr} {object : Object}
    (h : nativeOfExpr? optimize e = .ok object) : ∃ emitted, Native.ofExpr? e = .ok emitted ∧
      object.symbols = emitted.symbols ∧
      object.code = .native (if optimize then Native.optimize emitted.code else emitted.code) := by
  obtain ⟨emitted, hEmitted, h⟩ := Except.bind_eq_ok_iff.mp h
  cases h
  exact ⟨emitted, hEmitted, rfl, rfl⟩

/-- Native code leaves the value of its expression in `xmm0` and the stack as it was. The state
`σ` is arbitrary and may record what is read and called: both do it in the same order and with the
same arguments. -/
theorem run_native_eq_eval {optimize : Bool} {e : Expr} {object : Object} {code : List Inst}
    (hObject : nativeOfExpr? optimize e = .ok object) (hCode : object.code = .native code)
    {world : World σ UInt64} (hL : linkage.Realizes object.symbols world) (m : Machine σ) :
    ∃ r, Machine.run linkage code m = some ⟨r, m.stack, (e.eval .word world m.state).2⟩ ∧
      r.getXmm 0 = (e.eval .word world m.state).1 := by
  obtain ⟨emitted, hEmitted, hSymbols, hCode'⟩ := exists_emitted hObject
  rw [hCode] at hCode'
  cases hCode'
  rw [hSymbols] at hL
  cases optimize with
  | false => exact run_ofExpr? hEmitted hL m
  | true => exact run_optimized hEmitted hL m

/-! ## An example -/

/-- The expression `-f(x)`. -/
def negatedCall : Expr :=
  .unary ⟨0, 5⟩ .neg (.call ⟨1, 5⟩ "f" [.var ⟨3, 4⟩ "x"])

/-- A linkage that records what is read and called. Every variable is `2`, and every function
returns its first argument and overwrites all registers. -/
def recording : Linkage (List (String × List UInt64)) where
  word id _ := UInt64.ofNat id.toNat
  load _ := fun log => (0x4000000000000000, log ++ [("x", [])])
  call _ r := fun log =>
    (⟨1, 2, Vector.replicate 8 (r.getXmm 0)⟩, log ++ [("_Z1fd", [r.getXmm 0])])

/-- What the recorded names stand for. -/
def recordingWorld : World (List (String × List UInt64)) UInt64 where
  read name := fun log => (0x4000000000000000, log ++ [(name, [])])
  call signature args := fun log => (args.headD 0, log ++ [(signature.symbol, args)])

theorem ofExpr?_negatedCall : ∃ emitted, Native.ofExpr? negatedCall = .ok emitted ∧
    emitted.symbols.entries = #[.ofVar "x", .ofSignature ⟨"f", 1⟩] := by
  simp [Native.ofExpr?, negatedCall, Generator.emit, Generator.emitAll, maxArity,
    Generator.number, SymbolTable.intern, Generator.empty, SymbolTable.empty,
    SymbolTable.capacity, Generator.popXmm, Generator.pushXmm0, bind, Except.bind, pure,
    Except.pure, Symbol.ofVar, Symbol.ofSignature, Generator.callFunction_symbols]

theorem symbol_recorded {symbols : SymbolTable} {id : SymbolId} {symbol : Symbol}
    (h : symbols.entries = #[.ofVar "x", .ofSignature ⟨"f", 1⟩])
    (hId : symbols.get? id = some symbol) :
    symbol = .ofVar "x" ∨ symbol = .ofSignature ⟨"f", 1⟩ := by
  rw [SymbolTable.get?, h] at hId
  have hMem := Array.mem_of_getElem? hId
  simpa using hMem

theorem realizes_recording {symbols : SymbolTable}
    (h : symbols.entries = #[.ofVar "x", .ofSignature ⟨"f", 1⟩]) :
    recording.Realizes symbols recordingWorld where
  load id name hId s := by
    rcases symbol_recorded h hId with hSymbol | hSymbol
    · obtain ⟨rfl, -⟩ := Symbol.mk.inj hSymbol
      rfl
    · cases (Symbol.mk.inj hSymbol).2
  call id signature hId r s hEnvironment := by
    rcases symbol_recorded h hId with hSymbol | hSymbol
    · cases (Symbol.mk.inj hSymbol).2
    · obtain ⟨hName, hKind⟩ := Symbol.mk.inj hSymbol
      have hArity : signature.arity = 1 := SymbolKind.function.inj hKind
      have hXmm : r.xmm.toList.take 1 = [r.getXmm 0] := by
        rw [List.take_one, List.head?_eq_getElem?]
        exact congrArg Option.toList (Machine.toList_getXmm r 0)
      rw [hArity, hXmm]
      show _ = (r.getXmm 0, s ++ [(signature.symbol, [r.getXmm 0])])
      rw [hName]
      rfl

/-- `-f(x)` reads `x`, calls `f` and leaves the word on the stack where it was. -/
theorem run_negatedCall : ∃ object code r, nativeOfExpr? true negatedCall = .ok object ∧
    object.code = .native code ∧
    Machine.run recording code ⟨.zero, [7], []⟩ =
      some ⟨r, [7], [("x", []), ("_Z1fd", [0x4000000000000000])]⟩ ∧
    r.getXmm 0 = 0xC000000000000000 := by
  obtain ⟨emitted, hEmitted, hEntries⟩ := ofExpr?_negatedCall
  have hObject : nativeOfExpr? true negatedCall =
      .ok ⟨.native (Native.optimize emitted.code), emitted.symbols⟩ := by
    rw [nativeOfExpr?, hEmitted]
    rfl
  obtain ⟨r, hRun, hValue⟩ := run_native_eq_eval hObject rfl (realizes_recording hEntries)
    ⟨.zero, [7], []⟩
  refine ⟨_, _, r, hObject, rfl, ?_, ?_⟩
  · rw [hRun]
    rfl
  · rw [hValue]
    rfl

end Formula.Object
