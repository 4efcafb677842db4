import Formula.Native.Inst
import Formula.Text.LittleEndian

/-!
# Machine code

`Inst.encode` gives the bytes of an instruction. The address of a symbol is encoded as zeros;
`Native.relocations` lists the places of these zeros, and `Native.patch` overwrites them with
addresses.
-/

namespace Formula.Native

/-- The bits that select a register in the encoding of a move between `rax` and `xmm`. -/
def registerBits (register : UInt8) : UInt8 :=
  (0xc0 : UInt8) ||| ((register &&& 7) <<< 3)

namespace Imm

/-- The eight bytes of an operand. -/
def encode : Imm → List UInt8
  | value word => Packed.pack word
  | symbol _ => Packed.pack (0 : UInt64)

end Imm

namespace Inst

/-- The bytes of an instruction. -/
def encode : Inst → List UInt8
  | movAbsRax imm => 0x48 :: 0xb8 :: imm.encode
  | movAbsRdi imm => 0x48 :: 0xbf :: imm.encode
  | raxToXmm register => [0x66, 0x48, 0x0f, 0x6e, registerBits register]
  | xmmToRax register => [0x66, 0x48, 0x0f, 0x7e, registerBits register]
  | pushRax => [0x50]
  | popRax => [0x58]
  | pushMemRax => [0xff, 0x30]
  | addSd => [0xf2, 0x0f, 0x58, 0xc1]
  | subSd => [0xf2, 0x0f, 0x5c, 0xc1]
  | mulSd => [0xf2, 0x0f, 0x59, 0xc1]
  | divSd => [0xf2, 0x0f, 0x5e, 0xc1]
  | xorPd => [0x66, 0x0f, 0x57, 0xc1]
  | callRax => [0xff, 0xd0]
  | ret => [0xc3]
  | alignStack => [0x48, 0x83, 0xec, 0x08]
  | restoreStack => [0x48, 0x83, 0xc4, 0x08]

/-- The symbol that an instruction refers to, and what it needs of it. -/
def symbol? : Inst → Option (SymbolId × RelocationKind)
  | movAbsRax (.symbol id) => some (id, .address)
  | movAbsRdi (.symbol id) => some (id, .environment)
  | _ => none

end Inst

/-- The machine code of a list of instructions. -/
def encode (code : List Inst) : List UInt8 :=
  code.flatMap Inst.encode

/-- The places of symbol addresses in the machine code. -/
def relocations (code : List Inst) : List Relocation :=
  (code.foldl (fun (offset, found) (i : Inst) =>
    (offset + i.encode.length,
      match i.symbol? with
      | some (id, kind) => found.push ⟨id, offset + 2, kind⟩
      | none => found)) (0, (#[] : Array Relocation))).2.toList

/-- Overwrites bytes from an offset on. -/
def overwrite (bytes : Array UInt8) (offset : Nat) : List UInt8 → Array UInt8
  | [] => bytes
  | byte :: field => overwrite (bytes.setIfInBounds offset byte) (offset + 1) field

/-- Overwrites the place of each relocation with the word for its symbol and kind. -/
def patch (word : SymbolId → RelocationKind → UInt64) (relocations : List Relocation)
    (bytes : List UInt8) : List UInt8 :=
  (relocations.foldl (fun bytes r => overwrite bytes r.offset (Packed.pack (word r.symbol r.kind)))
    bytes.toArray).toList

end Formula.Native
