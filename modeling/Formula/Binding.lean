import Formula.Bytecode.Machine
import Formula.Native.Encoding
import Formula.Native.Pages
import Formula.Object
import Formula.Store

/-!
# Linked code

Linking binds each symbol of an object to something that exists: a variable, a function of the
library or of the host, or a sub-program, which is linked code itself. A binding of a sub-program
holds its linked code, so that linked code is complete in itself and nothing that happens later
changes it. Inside linked code the address of a symbol is its number, the position of its binding.
-/

namespace Formula

/-- The two ways in which the host can offer a function. -/
inductive HostKind where
  | native
  | closure
deriving DecidableEq, Inhabited

namespace HostKind

/-- The word in descriptions. -/
def text : HostKind → String
  | native => "Native"
  | closure => "Closure"

end HostKind

/-- A function of the host, known by a number. -/
structure HostFunction where
  kind : HostKind
  arity : Nat
  id : Nat
deriving DecidableEq, Inhabited

/-- Code that can run: bytecode with addresses in place of symbols, or native code and the pages it
has been loaded into. -/
inductive Image where
  | bytecode (bytes : List UInt8)
  | native (code : List Native.Inst) (pages : Native.Pages)

/-- What a symbol is bound to. -/
inductive Binding where
  | var (cell : Cell)
  | builtin (b : Builtin)
  | host (f : HostFunction)
  | program (name : String) (image : Image) (bindings : List Binding)

instance : Inhabited Binding := ⟨.builtin .clock⟩

/-- Code that can run with the bindings of its symbols. -/
structure Linked where
  image : Image
  bindings : List Binding

namespace Binding

/-- Number of parameters; a variable has none. -/
def arity : Binding → Nat
  | var _ => 0
  | builtin b => b.arity
  | host f => f.arity
  | program .. => 0

/-- How bytecode calls the function. -/
def convention : Binding → Bytecode.Convention
  | program .. => .subprogram
  | b => .arguments b.arity

/-- The operand of bytecode for the symbol at an address. -/
def operand (address : UInt64) : Binding → List UInt8
  | var _ => Packed.pack address
  | b => Packed.pack (address, b.convention.word)

end Binding

/-- The address of a symbol. -/
def SymbolId.address (id : SymbolId) : UInt64 :=
  UInt64.ofNat id.toNat

/-- The word that native code receives in the place of a symbol. -/
def SymbolId.word (id : SymbolId) (_ : RelocationKind) : UInt64 :=
  id.address

namespace Object

/-- Code that can run, once the symbols have bindings. -/
def image? (object : Object) (bindings : List Binding) : Except LinkError Image :=
  match object.code with
  | .bytecode code =>
    let bound := bindings.toArray
    let operand (id : SymbolId) := (bound[id.toNat]?.getD default).operand id.address
    .ok (.bytecode (Bytecode.Code.relocate operand code.relocations code.bytes))
  | .native code => do
    let bytes := Native.patch SymbolId.word (Native.relocations code) (Native.encode code)
    return .native code (← Native.Pages.load bytes)

/-- Linked code, once the symbols have bindings. -/
def link? (object : Object) (bindings : List Binding) : Except LinkError Linked := do
  return ⟨← object.image? bindings, bindings⟩

end Object

end Formula
