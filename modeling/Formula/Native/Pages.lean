import Formula.Error

/-!
# Executable memory

Machine code is put into whole pages. They can be written until they are made executable, and never
again after that.
-/

namespace Formula.Native

/-- A block of pages: its size in bytes, its contents, and whether they can be executed. -/
structure Pages where
  size : Nat
  byteAt : Nat → UInt8
  executable : Bool

namespace Pages

/-- Bytes in a page. -/
def pageSize : Nat := 4096

/-- Sizes from this number on are more than the memory of a machine. -/
def machineMemory : Nat := 0x800000000

/-- The least multiple of the page size that is not below `size`. -/
def roundUp (size : Nat) : Nat :=
  (size + (pageSize - 1)) / pageSize * pageSize

/-- Pages as the machine hands them out. -/
def zeroed (size : Nat) : Pages :=
  ⟨size, fun _ => 0, false⟩

/-- Pages for at least `size` bytes, from a machine that can map so many bytes if `maps` says so. -/
def allocateFrom (maps : Nat → Bool) (size : Nat) : Except MemoryError Pages :=
  if size = 0 ∨ UInt64.size ≤ size + (pageSize - 1) then .error .invalidSize
  else if maps (roundUp size) then .ok (zeroed (roundUp size))
  else .error .allocationFailed

/-- Pages for at least `size` bytes, from a machine with `machineMemory` bytes. -/
def allocate (size : Nat) : Except MemoryError Pages :=
  allocateFrom (· < machineMemory) size

/-- Pages with other bytes at an offset. -/
def overwrite (p : Pages) (offset : Nat) (data : List UInt8) : Pages :=
  { p with byteAt := fun i =>
      if offset ≤ i ∧ i < offset + data.length then data[i - offset]?.getD 0 else p.byteAt i }

/-- Writes bytes at an offset. -/
def write (p : Pages) (offset : Nat) (data : List UInt8) : Except MemoryError Pages :=
  if p.executable then .error .protectionFailed
  else if offset + data.length < UInt64.size ∧ offset + data.length ≤ p.size then
    .ok (p.overwrite offset data)
  else .error .invalidSize

/-- The `count` bytes from an offset on. -/
def read (p : Pages) (offset count : Nat) : List UInt8 :=
  (List.range count).map fun i => p.byteAt (offset + i)

/-- Makes the pages executable and read-only. -/
def makeExecutable (p : Pages) : Pages :=
  { p with executable := true }

/-- Whether the start of the pages can be called through a pointer of `width` bytes. -/
def isCallable (p : Pages) (width : Nat) : Bool :=
  p.executable && width = 8

/-- Executable pages that start with the given code. -/
def load (code : List UInt8) : Except LinkError Pages :=
  match allocate code.length with
  | .error error => .error (.memory error)
  | .ok pages =>
    match pages.write 0 code with
    | .error error => .error (.memory error)
    | .ok pages =>
      let pages := pages.makeExecutable
      if pages.isCallable 8 then .ok pages else .error .unsupportedTarget

end Pages

end Formula.Native
