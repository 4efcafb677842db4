import Formula.Bytecode.Stack
import Formula.Proofs.Bytecode.Encoding
import Formula.Proofs.Double

/-!
# The stack as a list of values

`Stack.Holds` says which values lie on a byte stack, the top first, and how many sub-programs run on
it. Pushing, popping and counting sub-programs are what they should be on such a list; a push fails
from `maxValues` values on.
-/

namespace Formula.Stack

/-! ## The buffer -/

section Buffer

variable {n : Nat}

theorem load_add (buffer : Vector UInt8 n) (start count more : Nat) :
    load buffer start (count + more) =
      load buffer start count ++ load buffer (start + count) more := by
  induction count generalizing start with
  | zero => simp [load]
  | succ count ih =>
    rw [Nat.add_right_comm, load, load, List.cons_append, ih, Nat.add_right_comm,
      Nat.add_assoc start]

theorem length_load (buffer : Vector UInt8 n) (start count : Nat) :
    (load buffer start count).length = count := by
  induction count generalizing start with
  | zero => rfl
  | succ count ih => rw [load, List.length_cons, ih]

theorem load_congr {buffer buffer' : Vector UInt8 n} (start count : Nat)
    (h : ∀ i, i < start + count → buffer[i]? = buffer'[i]?) :
    load buffer start count = load buffer' start count := by
  induction count generalizing start with
  | zero => rfl
  | succ count ih =>
    rw [load, load, h start (by omega), ih (start + 1) fun i hi => h i (by omega)]

theorem getElem?_store (buffer : Vector UInt8 n) (start : Nat) (bytes : List UInt8) {i : Nat}
    (h : i < start) : (store buffer start bytes)[i]? = buffer[i]? := by
  induction bytes generalizing buffer start with
  | nil => rfl
  | cons byte bytes ih =>
    rw [store, ih _ _ (by omega), Vector.getElem?_setIfInBounds_ne (by omega)]

theorem load_store (buffer : Vector UInt8 n) (start : Nat) (bytes : List UInt8)
    (h : start + bytes.length ≤ n) :
    load (store buffer start bytes) start bytes.length = bytes := by
  induction bytes generalizing buffer start with
  | nil => rfl
  | cons byte bytes ih =>
    rw [List.length_cons] at h ⊢
    rw [store, load, getElem?_store _ _ _ (Nat.lt_succ_self start), ih _ _ (by omega),
      Vector.getElem?_setIfInBounds_self_of_lt (by omega)]
    rfl

end Buffer

/-! ## Pushing and popping -/

section Fields

variable {α : Type} [Packed α] (s : Stack)

theorem length_bytes : s.bytes.length = s.depth :=
  length_load ..

/-- A push puts the field of the value behind the bytes in use. -/
theorem push_of_room (value : α) (h : s.depth + Packed.width α ≤ 1024) :
    ∃ s', Stack.push value s = .ok () s' ∧ s'.bytes = s.bytes ++ Packed.pack value ∧
      s'.calls = s.calls := by
  obtain ⟨buffer, depth, calls, depth_le⟩ := s
  refine ⟨_, dif_pos h, ?_, rfl⟩
  have hField := load_store buffer depth (Packed.pack value)
    (by rw [Packed.length_pack]; exact h)
  have hBelow := load_congr 0 depth fun i hi =>
    getElem?_store buffer depth (Packed.pack value) (show i < depth by omega)
  rw [Packed.length_pack] at hField
  show load _ 0 (depth + Packed.width α) = load buffer 0 depth ++ _
  rw [load_add, Nat.zero_add, hField, hBelow]

theorem push_of_full (value : α) (h : 1024 < s.depth + Packed.width α) :
    Stack.push value s = .error .stackOverflow s :=
  dif_neg (Nat.not_le.mpr h)

/-- A pop takes the value of the last bytes in use, and leaves those before. -/
theorem pop_of_enough (h : Packed.width α ≤ s.depth) :
    ∃ field s', (Stack.pop s : EStateM.Result RuntimeError Stack α) =
        .ok (Packed.unpack field) s' ∧
      s.bytes = s'.bytes ++ field ∧ field.length = Packed.width α ∧ s'.calls = s.calls := by
  obtain ⟨buffer, depth, calls, depth_le⟩ := s
  refine ⟨load buffer (depth - Packed.width α) (Packed.width α), _, if_pos h, ?_,
    length_load .., rfl⟩
  have hAll := load_add buffer 0 (depth - Packed.width α) (Packed.width α)
  rwa [Nat.zero_add, Nat.sub_add_cancel h] at hAll

theorem pop_of_few (h : s.depth < Packed.width α) :
    (Stack.pop s : EStateM.Result RuntimeError Stack α) = .error .stackUnderflow s :=
  if_neg (Nat.not_le.mpr h)

end Fields

/-! ## Values -/

/-- How many values fit. -/
def maxValues : Nat := 128

/-- The values on a stack, the top first, and how many sub-programs run on it. -/
def Holds (s : Stack) (values : List Float) (calls : Nat) : Prop :=
  s.calls = calls ∧ ∃ fields : List Double, fields.map Double.toFloat = values ∧
    s.bytes = fields.reverse.flatMap Packed.pack

theorem length_fields (fields : List Double) :
    (fields.flatMap Packed.pack).length = 8 * fields.length := by
  induction fields with
  | nil => rfl
  | cons field fields ih =>
    rw [List.flatMap_cons, List.length_append, ih, Packed.length_pack, List.length_cons]
    show 8 + _ = _
    omega

namespace Holds

variable {s : Stack} {values : List Float} {value : Float} {calls : Nat}

theorem depth (h : s.Holds values calls) : s.depth = 8 * values.length := by
  obtain ⟨-, fields, rfl, hBytes⟩ := h
  rw [← length_bytes, hBytes, length_fields, List.length_reverse, List.length_map]

theorem length_le (h : s.Holds values calls) : values.length ≤ maxValues := by
  have hDepth := h.depth
  have hFits := s.depth_le
  show values.length ≤ 128
  omega

theorem empty : Stack.empty.Holds [] 0 :=
  ⟨rfl, [], rfl, rfl⟩

theorem push (h : s.Holds values calls) (field : Double) (hRoom : values.length < maxValues) :
    ∃ s', Stack.push field s = .ok () s' ∧ s'.Holds (field.toFloat :: values) calls := by
  have hDepth := h.depth
  obtain ⟨hCalls, fields, rfl, hBytes⟩ := h
  have hFits : s.depth + Packed.width Double ≤ 1024 := by
    show s.depth + 8 ≤ 1024
    have hMax : (fields.map Double.toFloat).length < 128 := hRoom
    omega
  obtain ⟨s', hPush, hBytes', hCalls'⟩ := push_of_room s field hFits
  refine ⟨s', hPush, hCalls'.trans hCalls, field :: fields, rfl, ?_⟩
  rw [hBytes', hBytes, List.reverse_cons, List.flatMap_append, List.flatMap_singleton]

theorem push_full (h : s.Holds values calls) (field : Double) (hFull : maxValues ≤ values.length) :
    Stack.push field s = .error .stackOverflow s := by
  have hDepth := h.depth
  refine push_of_full s field ?_
  show 1024 < s.depth + 8
  have hMax : 128 ≤ values.length := hFull
  omega

theorem pop (h : s.Holds (value :: values) calls) :
    ∃ field s', Stack.pop s = .ok field s' ∧ Double.toFloat field = value ∧
      s'.Holds values calls := by
  have hDepth := h.depth
  obtain ⟨hCalls, fields, hFields, hBytes⟩ := h
  obtain ⟨field, fields, rfl, rfl, rfl⟩ := List.map_eq_cons_iff.mp hFields
  have hEnough : Packed.width Double ≤ s.depth := by
    show 8 ≤ s.depth
    rw [List.length_cons] at hDepth
    omega
  obtain ⟨top, s', hPop, hBytes', hTop, hCalls'⟩ := pop_of_enough (α := Double) s hEnough
  rw [hBytes', List.reverse_cons, List.flatMap_append, List.flatMap_singleton] at hBytes
  obtain ⟨hRest, rfl⟩ := List.append_inj' hBytes (hTop.trans (Packed.length_pack field).symm)
  rw [Packed.unpack_pack] at hPop
  exact ⟨field, s', hPop, rfl, hCalls'.trans hCalls, fields, rfl, hRest⟩

theorem enterCall (h : s.Holds values calls) (hRoom : calls < maxCalls) :
    ∃ s', Stack.enterCall s = .ok () s' ∧ s'.Holds values (calls + 1) := by
  obtain ⟨rfl, hFields⟩ := h
  exact ⟨_, if_pos hRoom, rfl, hFields⟩

theorem enterCall_full (h : s.Holds values calls) (hFull : maxCalls ≤ calls) :
    Stack.enterCall s = .error (.callDepthExceeded maxCalls) s := by
  obtain ⟨rfl, -⟩ := h
  exact if_neg (Nat.not_lt.mpr hFull)

theorem leaveCall (h : s.Holds values (calls + 1)) : s.leaveCall.Holds values calls := by
  obtain ⟨hCalls, hFields⟩ := h
  refine ⟨?_, hFields⟩
  show s.calls - 1 = calls
  rw [hCalls, Nat.add_sub_cancel]

/-- Truncating a stack to the depth it has changes nothing. -/
theorem truncate (h : s.Holds values calls) : (s.truncate s.depth).Holds values calls := by
  obtain ⟨hCalls, hFields⟩ := h
  refine ⟨hCalls, ?_⟩
  simpa [bytes, Stack.truncate] using hFields

end Holds

end Formula.Stack
