import Formula.Binding
import Formula.Proofs.Native.Patching
import Formula.Proofs.Native.Value
import Formula.Proofs.ParsedNames
import Mathlib.Tactic.SplitIfs

/-!
# Loading native code

Patching changes no length, so native code can be loaded wherever there are pages for its bytes
(`Object.image?_native`).
-/

namespace Formula

namespace Native

namespace Pages

theorem le_roundUp (size : Nat) : size ≤ roundUp size := by
  unfold roundUp pageSize
  omega

/-- Pages that can be had can be filled and made executable. -/
theorem load_isOk {bytes : List UInt8} (h : ∃ pages, allocate bytes.length = .ok pages) :
    ∃ pages, load bytes = .ok pages := by
  obtain ⟨pages, hPages⟩ := h
  rw [load, hPages]
  unfold allocate allocateFrom zeroed at hPages
  split_ifs at hPages with hSize hMemory
  cases hPages
  have hFits : 0 + bytes.length < UInt64.size ∧ 0 + bytes.length ≤ roundUp bytes.length := by
    have hLe := le_roundUp bytes.length
    omega
  simp only [write, Bool.false_eq_true, if_false, if_pos hFits]
  exact ⟨_, rfl⟩

end Pages

end Native

/-- Code is ready to run with any bindings if there are pages for it. -/
theorem Object.image?_native {object : Object} {code : List Native.Inst}
    (hCode : object.code = .native code)
    (hPages : ∃ pages, Native.Pages.allocate (Native.encode code).length = .ok pages)
    (bindings : List Binding) : ∃ image, object.image? bindings = .ok image := by
  rw [← Native.length_patch SymbolId.word (Native.relocations code)] at hPages
  obtain ⟨pages, hLoad⟩ := Native.Pages.load_isOk hPages
  simp only [image?, hCode, bind, Except.bind, hLoad]
  exact ⟨_, rfl⟩

/-- The same of code for either machine. -/
theorem Object.image?_isOk {object : Object} (hPages : ∀ code, object.code = .native code →
      ∃ pages, Native.Pages.allocate (Native.encode code).length = .ok pages)
    (bindings : List Binding) : ∃ image, object.image? bindings = .ok image := by
  cases hCode : object.code with
  | native code => exact image?_native hCode (hPages code hCode) bindings
  | bytecode code =>
    rw [image?, hCode]
    exact ⟨_, rfl⟩

/-! ## An example -/

/-- The native code of `-x`, without the push and the pop of the result. -/
def Native.negX (id : SymbolId) : List Inst :=
  [.movAbsRax (.symbol id), .pushMemRax, .popRax, .raxToXmm 0, .movAbsRax (.value signBit),
    .raxToXmm 1, .xorPd, .ret]

theorem Native.length_encode_negX (id : SymbolId) : (encode (negX id)).length = 38 := rfl

/-- The push and the pop are dropped first, and then the moves around them. -/
theorem Native.optimize_negX (number : Symbol → SymbolId) :
    optimize (lower number 0 .negX ++ (pops 1 ++ [.ret])) = negX (number (.ofVar "x")) := by
  have hOnce : pass (lower number 0 .negX ++ (pops 1 ++ [.ret])) =
      [.movAbsRax (.symbol (number (.ofVar "x"))), .pushMemRax, .popRax, .raxToXmm 0,
        .movAbsRax (.value signBit), .raxToXmm 1, .xorPd, .xmmToRax 0, .raxToXmm 0, .ret] := rfl
  have hTwice : pass (pass (lower number 0 .negX ++ (pops 1 ++ [.ret]))) =
      negX (number (.ofVar "x")) := by
    rw [hOnce]
    rfl
  have hSame : pass (negX (number (.ofVar "x"))) = negX (number (.ofVar "x")) := rfl
  have hLess : (10 : Nat) < 12 := by decide
  have hLess' : (8 : Nat) < 10 := by decide
  rw [optimize, if_pos (by rw [hOnce]; exact hLess), optimize,
    if_pos (by rw [hTwice, hOnce]; exact hLess'), hTwice, optimize,
    if_neg (by rw [hSame]; exact Nat.lt_irrefl 8)]

/-- There are pages for the native code of `-x`. -/
theorem Object.pages_negX {object : Object} {code : List Native.Inst}
    (h : nativeOfExpr? true .negX = .ok object) (hCode : object.code = .native code) :
    ∃ pages, Native.Pages.allocate (Native.encode code).length = .ok pages := by
  obtain ⟨emitted, hEmitted, -, hCode'⟩ := exists_emitted h
  rw [hCode, (Native.ofExpr?_ok hEmitted).2.2, if_pos rfl, Native.optimize_negX] at hCode'
  cases hCode'
  rw [Native.length_encode_negX]
  exact ⟨_, rfl⟩

theorem Object.image?_negX {object : Object} (h : nativeOfExpr? true .negX = .ok object)
    (bindings : List Binding) : ∃ image, object.image? bindings = .ok image := by
  obtain ⟨emitted, -, -, hCode⟩ := exists_emitted h
  exact image?_native hCode (pages_negX h hCode) bindings

end Formula
