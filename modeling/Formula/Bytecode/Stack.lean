import Formula.Error
import Formula.Text.LittleEndian

/-!
# Evaluation stacks

The stack of the bytecode machine is a buffer of `Stack.capacity` bytes, of which the first `depth`
are in use. Values of any width are pushed and popped as little-endian fields, and every access is
checked. The stack also counts the sub-programs that are running on it.
-/

namespace Formula

/-- A bounded byte stack. -/
structure Stack where
  buffer : Vector UInt8 1024
  depth : Nat
  calls : Nat
  depth_le : depth ≤ 1024 := by omega

namespace Stack

/-- How many bytes fit. -/
def capacity : Nat := 1024

/-- How many sub-programs may run inside one another. -/
def maxCalls : Nat := 64

/-- A stack without values. -/
def empty : Stack :=
  { buffer := Vector.replicate 1024 0, depth := 0, calls := 0 }

instance : Inhabited Stack := ⟨empty⟩

/-- Whether no byte is in use. -/
def isEmpty (s : Stack) : Bool :=
  s.depth = 0

/-- Writes bytes into a buffer, the first of them at `start`. -/
def store {n : Nat} (buffer : Vector UInt8 n) (start : Nat) : List UInt8 → Vector UInt8 n
  | [] => buffer
  | byte :: bytes => store (buffer.setIfInBounds start byte) (start + 1) bytes

/-- The `count` bytes of a buffer from `start` on. -/
def load {n : Nat} (buffer : Vector UInt8 n) (start : Nat) : Nat → List UInt8
  | 0 => []
  | count + 1 => buffer[start]?.getD 0 :: load buffer (start + 1) count

/-- The bytes in use, the top last. -/
def bytes (s : Stack) : List UInt8 :=
  load s.buffer 0 s.depth

/-- Puts a value on top. -/
def push {α : Type} [Packed α] (value : α) : EStateM RuntimeError Stack Unit :=
  fun ⟨buffer, depth, calls, depth_le⟩ =>
    if h : depth + Packed.width α ≤ 1024 then
      .ok () ⟨store buffer depth (Packed.pack value), depth + Packed.width α, calls, h⟩
    else .error .stackOverflow ⟨buffer, depth, calls, depth_le⟩

/-- Takes the value on top. -/
def pop {α : Type} [Packed α] : EStateM RuntimeError Stack α :=
  fun ⟨buffer, depth, calls, depth_le⟩ =>
    if Packed.width α ≤ depth then
      let start := depth - Packed.width α
      .ok (Packed.unpack (load buffer start (Packed.width α)))
        ⟨buffer, start, calls, Nat.le_trans (Nat.sub_le ..) depth_le⟩
    else .error .stackUnderflow ⟨buffer, depth, calls, depth_le⟩

/-- Drops whatever lies above `depth`. -/
def truncate (depth : Nat) (s : Stack) : Stack :=
  { s with depth := min s.depth depth,
           depth_le := Nat.le_trans (Nat.min_le_left ..) s.depth_le }

/-- Counts one more running sub-program. -/
def enterCall : EStateM RuntimeError Stack Unit := fun s =>
  if s.calls < maxCalls then .ok () { s with calls := s.calls + 1 }
  else .error (.callDepthExceeded maxCalls) s

/-- Counts one running sub-program less. -/
def leaveCall (s : Stack) : Stack :=
  { s with calls := s.calls - 1 }

end Stack

end Formula
