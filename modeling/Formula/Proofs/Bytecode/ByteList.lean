import Formula.Proofs.Bytecode.Stack

/-!
# The stack as a bounded list of bytes

Values of four types lie on a stack, in any order. What a push, a pop or a truncation does to a list
of at most 1024 bytes, whose end is the top, is the relation `Acts`; it leaves no choice
(`Acts.unique`). A stack does the same to its bytes in use, whatever the buffer holds above them
(`acts_perform`), so it answers every sequence of requests as the list does
(`refines_byte_list`).

A buffer has a value for every index here, also outside of it. `perform?` is an operation that has
none there, and it never comes to such an index (`perform?_eq_some`).
-/

namespace Formula

namespace Packed

/-- A type that has a value for every field. -/
class Exhaustive (α : Type) [Packed α] : Prop where
  toNat_ofNat : ∀ n < 256 ^ width α, toNat (ofNat n : α) = n

instance : Exhaustive UInt16 where
  toNat_ofNat _ h := UInt16.toNat_ofNat_of_lt' h

instance : Exhaustive UInt32 where
  toNat_ofNat _ h := UInt32.toNat_ofNat_of_lt' h

instance : Exhaustive UInt64 where
  toNat_ofNat _ h := UInt64.toNat_ofNat_of_lt' h

instance : Exhaustive Double where
  toNat_ofNat _ h := UInt64.toNat_ofNat_of_lt' h

/-- A field is that of the value that is read from it. -/
theorem pack_unpack {α : Type} [Packed α] [Exhaustive α] {field : List UInt8}
    (h : field.length = width α) : pack (unpack field : α) = field := by
  have hBound := LittleEndian.number_lt field
  rw [h] at hBound
  rw [pack, unpack, Exhaustive.toNat_ofNat _ hBound, ← h, LittleEndian.bytes_number]

end Packed

/-- Each byte of a field holds a digit of the number to the base of 256. -/
theorem LittleEndian.bytes_eq_map (width n : Nat) :
    bytes width n = (List.range width).map fun i => UInt8.ofNat (n / 256 ^ i) := by
  induction width generalizing n with
  | zero => rfl
  | succ width ih =>
    rw [bytes, ih, List.range_succ_eq_map, List.map_cons, List.map_map, Nat.pow_zero, Nat.div_one]
    refine congrArg (List.cons _) (List.map_congr_left fun i _ => ?_)
    rw [Function.comp_apply, Nat.pow_succ', Nat.div_div_eq_div_mul]

namespace Stack

/-! ## Requests -/

/-- The types of the values on a stack. -/
inductive Kind where
  | double
  | long
  | int
  | short
deriving DecidableEq

namespace Kind

/-- The values of a type. -/
abbrev Value : Kind → Type
  | double => Double
  | long => UInt64
  | int => UInt32
  | short => UInt16

instance : (kind : Kind) → Packed kind.Value
  | double => inferInstanceAs (Packed Double)
  | long => inferInstanceAs (Packed UInt64)
  | int => inferInstanceAs (Packed UInt32)
  | short => inferInstanceAs (Packed UInt16)

instance : (kind : Kind) → Packed.Lawful kind.Value
  | double => inferInstanceAs (Packed.Lawful Double)
  | long => inferInstanceAs (Packed.Lawful UInt64)
  | int => inferInstanceAs (Packed.Lawful UInt32)
  | short => inferInstanceAs (Packed.Lawful UInt16)

instance : (kind : Kind) → Packed.Exhaustive kind.Value
  | double => inferInstanceAs (Packed.Exhaustive Double)
  | long => inferInstanceAs (Packed.Exhaustive UInt64)
  | int => inferInstanceAs (Packed.Exhaustive UInt32)
  | short => inferInstanceAs (Packed.Exhaustive UInt16)

/-- How many bytes a value takes. -/
def size : Kind → Nat
  | double => 8
  | long => 8
  | int => 4
  | short => 2

/-- The number that the bits of a value spell. -/
def number : (kind : Kind) → kind.Value → Nat
  | double, value => value.bits.toNat
  | long, value => value.toNat
  | int, value => value.toNat
  | short, value => value.toNat

/-- The bytes of a value, the least significant first. -/
def encode (kind : Kind) (value : kind.Value) : List UInt8 :=
  (List.range kind.size).map fun i => UInt8.ofNat (kind.number value / 256 ^ i)

theorem width_eq (kind : Kind) : Packed.width kind.Value = kind.size := by
  cases kind <;> rfl

theorem pack_eq (kind : Kind) (value : kind.Value) : Packed.pack value = kind.encode value := by
  have hNumber : Packed.toNat value = kind.number value := by cases kind <;> rfl
  rw [Packed.pack, LittleEndian.bytes_eq_map, width_eq, hNumber, encode]

theorem length_encode (kind : Kind) (value : kind.Value) :
    (kind.encode value).length = kind.size := by
  rw [encode, List.length_map, List.length_range]

theorem encode_inj (kind : Kind) {value value' : kind.Value}
    (h : kind.encode value = kind.encode value') : value = value' := by
  rw [← pack_eq, ← pack_eq] at h
  rw [← Packed.unpack_pack value, h, Packed.unpack_pack]

end Kind

/-- What can be asked of a stack. -/
inductive Request where
  | push (kind : Kind) (value : kind.Value)
  | pop (kind : Kind)
  | truncate (depth : Nat)

/-- The answer. -/
inductive Reply where
  | done
  | value (kind : Kind) (value : kind.Value)
  | refused (error : RuntimeError)

/-- Answers a request. -/
def perform (s : Stack) : Request → Reply × Stack
  | .push _ value =>
    match push value s with
    | .ok () s' => (.done, s')
    | .error error s' => (.refused error, s')
  | .pop kind =>
    match (pop s : EStateM.Result RuntimeError Stack kind.Value) with
    | .ok value s' => (.value kind value, s')
    | .error error s' => (.refused error, s')
  | .truncate depth => (.done, s.truncate depth)

/-- The answers to a sequence of requests, and the stack after it. -/
def run (s : Stack) : List Request → List Reply × Stack
  | [] => ([], s)
  | request :: requests =>
    let later := (s.perform request).2.run requests
    ((s.perform request).1 :: later.1, later.2)

/-! ## Lists of bytes -/

/-- What a request does to a list of at most 1024 bytes, the top last. -/
inductive Acts (bytes : List UInt8) : Request → Reply → List UInt8 → Prop where
  | push {kind : Kind} {value : kind.Value} (hRoom : bytes.length + kind.size ≤ 1024) :
    Acts bytes (.push kind value) .done (bytes ++ kind.encode value)
  | overflow {kind : Kind} {value : kind.Value} (hFull : 1024 < bytes.length + kind.size) :
    Acts bytes (.push kind value) (.refused .stackOverflow) bytes
  | pop {kind : Kind} {value : kind.Value} {rest : List UInt8}
    (hTop : bytes = rest ++ kind.encode value) : Acts bytes (.pop kind) (.value kind value) rest
  | underflow {kind : Kind} (hShort : bytes.length < kind.size) :
    Acts bytes (.pop kind) (.refused .stackUnderflow) bytes
  | truncate {depth : Nat} : Acts bytes (.truncate depth) .done (bytes.take depth)

/-- What a sequence of requests does. -/
inductive Behaves : List UInt8 → List Request → List Reply → List UInt8 → Prop where
  | nil {bytes : List UInt8} : Behaves bytes [] [] bytes
  | cons {bytes bytes' bytes'' : List UInt8} {request : Request} {requests : List Request}
    {reply : Reply} {replies : List Reply} (hFirst : Acts bytes request reply bytes')
    (hRest : Behaves bytes' requests replies bytes'') :
    Behaves bytes (request :: requests) (reply :: replies) bytes''

section Determined

variable {bytes rest rest' : List UInt8} {reply reply' : Reply} {replies replies' : List Reply}

/-- A list that ends in a value is long enough for it. -/
theorem Acts.size_le {kind : Kind} {value : kind.Value} (h : bytes = rest ++ kind.encode value) :
    kind.size ≤ bytes.length := by
  rw [h, List.length_append, kind.length_encode]
  exact Nat.le_add_left ..

theorem Acts.unique {request : Request} (h : Acts bytes request reply rest)
    (h' : Acts bytes request reply' rest') : reply = reply' ∧ rest = rest' := by
  cases h with
  | push hRoom =>
    cases h' with
    | push => exact ⟨rfl, rfl⟩
    | overflow hFull => exact absurd hRoom (Nat.not_le.mpr hFull)
  | overflow hFull =>
    cases h' with
    | push hRoom => exact absurd hRoom (Nat.not_le.mpr hFull)
    | overflow => exact ⟨rfl, rfl⟩
  | @pop kind value _ hTop =>
    cases h' with
    | @pop _ value' _ hTop' =>
      obtain ⟨hRest, hValue⟩ := List.append_inj' (hTop.symm.trans hTop')
        (by rw [kind.length_encode, kind.length_encode])
      rw [kind.encode_inj hValue]
      exact ⟨rfl, hRest⟩
    | underflow hShort => exact absurd (Acts.size_le hTop) (Nat.not_le.mpr hShort)
  | underflow hShort =>
    cases h' with
    | pop hTop => exact absurd (Acts.size_le hTop) (Nat.not_le.mpr hShort)
    | underflow => exact ⟨rfl, rfl⟩
  | truncate =>
    cases h' with
    | truncate => exact ⟨rfl, rfl⟩

/-- A push is refused exactly if there is no room. -/
theorem Acts.stackOverflow_iff {kind : Kind} {value : kind.Value}
    (h : Acts bytes (.push kind value) reply rest) :
    reply = .refused .stackOverflow ↔ 1024 < bytes.length + kind.size := by
  cases h with
  | push hRoom => exact iff_of_false nofun (Nat.not_lt.mpr hRoom)
  | overflow hFull => exact iff_of_true rfl hFull

/-- A pop is refused exactly if there are too few bytes. -/
theorem Acts.stackUnderflow_iff {kind : Kind} (h : Acts bytes (.pop kind) reply rest) :
    reply = .refused .stackUnderflow ↔ bytes.length < kind.size := by
  cases h with
  | pop hTop => exact iff_of_false nofun (Nat.not_lt.mpr (size_le hTop))
  | underflow hShort => exact iff_of_true rfl hShort

theorem Behaves.unique {requests : List Request} (h : Behaves bytes requests replies rest)
    (h' : Behaves bytes requests replies' rest') : replies = replies' ∧ rest = rest' := by
  induction h generalizing replies' with
  | nil =>
    cases h' with
    | nil => exact ⟨rfl, rfl⟩
  | cons hFirst hRest ih =>
    cases h' with
    | cons hFirst' hRest' =>
      obtain ⟨rfl, rfl⟩ := hFirst.unique hFirst'
      obtain ⟨rfl, rfl⟩ := ih hRest'
      exact ⟨rfl, rfl⟩

end Determined

/-! ## Operations -/

section Operations

variable (s : Stack)

theorem take_load {n : Nat} (buffer : Vector UInt8 n) (start count limit : Nat) :
    load buffer start (min count limit) = (load buffer start count).take limit := by
  rcases Nat.le_total limit count with h | h
  · obtain ⟨more, rfl⟩ := Nat.exists_eq_add_of_le h
    rw [Nat.min_eq_right h, load_add, List.take_left' (length_load ..)]
  · rw [Nat.min_eq_left h, List.take_of_length_le (by rwa [length_load])]

/-- A stack does to its bytes in use what its requests do to a list. -/
theorem acts_perform (request : Request) :
    Acts s.bytes request (s.perform request).1 (s.perform request).2.bytes := by
  cases request with
  | push kind value =>
    have hSize : Packed.width kind.Value = kind.size := kind.width_eq
    rcases Nat.lt_or_ge 1024 (s.depth + kind.size) with hFull | hRoom
    · rw [perform, push_of_full s value (by rwa [hSize])]
      exact .overflow (by rwa [length_bytes])
    · obtain ⟨s', hPush, hBytes, -⟩ := push_of_room s value (by rwa [hSize])
      rw [perform, hPush, hBytes, kind.pack_eq]
      exact .push (by rwa [length_bytes])
  | pop kind =>
    have hSize : Packed.width kind.Value = kind.size := kind.width_eq
    rcases Nat.lt_or_ge s.depth kind.size with hShort | hEnough
    · rw [perform, pop_of_few (α := kind.Value) s (by rwa [hSize])]
      exact .underflow (by rwa [length_bytes])
    · obtain ⟨field, s', hPop, hBytes, hField, -⟩ :=
        pop_of_enough (α := kind.Value) s (by rwa [hSize])
      rw [perform, hPop, hBytes]
      refine .pop ?_
      rw [← kind.pack_eq, Packed.pack_unpack hField]
  | truncate depth =>
    have hBytes : (s.truncate depth).bytes = s.bytes.take depth := take_load ..
    rw [perform, hBytes]
    exact .truncate

theorem behaves_run (requests : List Request) :
    Behaves s.bytes requests (s.run requests).1 (s.run requests).2.bytes := by
  induction requests generalizing s with
  | nil => exact .nil
  | cons request requests ih => exact .cons (s.acts_perform request) (ih _)

/-- A refusal changes nothing, not even above the bytes in use. -/
theorem perform_of_refused {request : Request} {error : RuntimeError}
    (h : (s.perform request).1 = .refused error) : (s.perform request).2 = s := by
  cases request with
  | push kind value =>
    rcases Nat.lt_or_ge 1024 (s.depth + Packed.width kind.Value) with hFull | hRoom
    · rw [perform, push_of_full s value hFull]
    · obtain ⟨s', hPush, -⟩ := push_of_room s value hRoom
      rw [perform, hPush] at h
      cases h
  | pop kind =>
    rcases Nat.lt_or_ge s.depth (Packed.width kind.Value) with hShort | hEnough
    · rw [perform, pop_of_few (α := kind.Value) s hShort]
    · obtain ⟨field, s', hPop, -⟩ := pop_of_enough (α := kind.Value) s hEnough
      rw [perform, hPop] at h
      cases h
  | truncate depth => cases h

end Operations

/-! ## Indices -/

section Indices

variable {n : Nat}

/-- Writes bytes into a buffer, the first of them at `start`, if there is a place for each. -/
def store? (buffer : Vector UInt8 n) (start : Nat) : List UInt8 → Option (Vector UInt8 n)
  | [] => some buffer
  | byte :: bytes =>
    if h : start < n then store? (buffer.set start byte) (start + 1) bytes else none

/-- The `count` bytes of a buffer from `start` on, if it has so many. -/
def load? (buffer : Vector UInt8 n) (start : Nat) : Nat → Option (List UInt8)
  | 0 => some []
  | count + 1 => do
    let byte ← buffer[start]?
    let bytes ← load? buffer (start + 1) count
    return byte :: bytes

theorem store?_eq_some (buffer : Vector UInt8 n) (start : Nat) (bytes : List UInt8)
    (h : start + bytes.length ≤ n) :
    store? buffer start bytes = some (store buffer start bytes) := by
  induction bytes generalizing buffer start with
  | nil => rfl
  | cons byte bytes ih =>
    rw [List.length_cons] at h
    have hStart : start < n := by omega
    have hSet : buffer.set start byte = buffer.setIfInBounds start byte :=
      Vector.toList_inj.mp (by rw [Vector.toList_set, Vector.toList_setIfInBounds])
    rw [store?, dif_pos hStart, hSet, ih _ _ (by omega), store]

theorem load?_eq_some (buffer : Vector UInt8 n) (start count : Nat) (h : start + count ≤ n) :
    load? buffer start count = some (load buffer start count) := by
  induction count generalizing start with
  | zero => rfl
  | succ count ih =>
    have hStart : start < n := by omega
    rw [load?, load, ih _ (by omega), Vector.getElem?_eq_getElem hStart]
    rfl

end Indices

/-- Answers a request, if no index is needed outside the buffer. -/
def perform? (s : Stack) : Request → Option (Reply × Stack)
  | .push kind value =>
    if h : s.depth + kind.size ≤ 1024 then do
      let buffer ← store? s.buffer s.depth (kind.encode value)
      return (.done, { s with buffer := buffer, depth := s.depth + kind.size, depth_le := h })
    else some (.refused .stackOverflow, s)
  | .pop kind =>
    if kind.size ≤ s.depth then do
      let field ← load? s.buffer (s.depth - kind.size) kind.size
      return (.value kind (Packed.unpack field),
        { s with depth := s.depth - kind.size,
                 depth_le := Nat.le_trans (Nat.sub_le ..) s.depth_le })
    else some (.refused .stackUnderflow, s)
  | .truncate depth => some (.done, s.truncate depth)

theorem perform?_eq_some (s : Stack) (request : Request) :
    s.perform? request = some (s.perform request) := by
  obtain ⟨buffer, depth, calls, depth_le⟩ := s
  cases request with
  | push kind value =>
    have hSize : Packed.width kind.Value = kind.size := kind.width_eq
    rcases Nat.lt_or_ge 1024 (depth + kind.size) with hFull | hRoom
    · rw [perform?, dif_neg (Nat.not_le.mpr hFull), perform, push_of_full _ value (by rwa [hSize])]
    · have hStore := store?_eq_some buffer depth (kind.encode value)
        (by rwa [kind.length_encode])
      rw [perform?, dif_pos hRoom, hStore]
      simp only [perform, push, hSize, hRoom, kind.pack_eq]
      rfl
  | pop kind =>
    have hSize : Packed.width kind.Value = kind.size := kind.width_eq
    rcases Nat.lt_or_ge depth kind.size with hShort | hEnough
    · rw [perform?, if_neg (Nat.not_le.mpr hShort), perform,
        pop_of_few (α := kind.Value) _ (by rwa [hSize])]
    · have hLoad := load?_eq_some buffer (depth - kind.size) kind.size (by omega)
      rw [perform?, if_pos hEnough, hLoad]
      simp only [perform, pop, hSize, hEnough]
      rfl
  | truncate depth => rfl

/-! ## Any requests -/

/-- Whatever is asked of an empty stack, it answers as the list of its bytes in use does, and as no
other answers are possible for the list. So these are never more than 1024; a value of any type is
refused exactly if its bytes do not fit, and a pop exactly if there are too few; a truncation adds
none; a refused request changes nothing; and no index is needed outside the buffer. -/
theorem refines_byte_list (requests : List Request) :
    let s := (empty.run requests).2
    (∀ replies bytes, Behaves [] requests replies bytes ↔
      replies = (empty.run requests).1 ∧ bytes = s.bytes) ∧
    s.bytes.length ≤ 1024 ∧
    (∀ kind value, (s.perform (.push kind value)).1 = .refused .stackOverflow ↔
      1024 < s.bytes.length + kind.size) ∧
    (∀ kind, (s.perform (.pop kind)).1 = .refused .stackUnderflow ↔
      s.bytes.length < kind.size) ∧
    (∀ depth, (s.perform (.truncate depth)).2.bytes = s.bytes.take depth ∧
      (s.perform (.truncate depth)).2.bytes.length ≤ s.bytes.length) ∧
    ∀ request, s.perform? request = some (s.perform request) ∧
      ∀ error, (s.perform request).1 = .refused error → (s.perform request).2 = s := by
  intro s
  have hRun : Behaves [] requests (empty.run requests).1 s.bytes := empty.behaves_run requests
  refine ⟨fun replies bytes => ⟨fun h => h.unique hRun, ?_⟩, ?_,
    fun kind value => (s.acts_perform (.push kind value)).stackOverflow_iff,
    fun kind => (s.acts_perform (.pop kind)).stackUnderflow_iff, fun depth => ?_,
    fun request => ⟨s.perform?_eq_some request, fun _ => s.perform_of_refused⟩⟩
  · rintro ⟨rfl, rfl⟩
    exact hRun
  · rw [length_bytes]
    exact s.depth_le
  · obtain ⟨-, hBytes⟩ := (s.acts_perform (.truncate depth)).unique .truncate
    rw [hBytes]
    exact ⟨rfl, List.length_take_le' ..⟩

/-- Two short values are taken as one of twice their width, and then nothing is left. -/
theorem refines_byte_list_shorts :
    let requests := [.push .short 7, .push .short 1, .pop .int]
    let s := (empty.run requests).2
    (empty.run requests).1 = [.done, .done, .value .int 0x10007] ∧ s.bytes = [] ∧
      (s.perform (.pop .short)).1 = .refused .stackUnderflow ∧ (s.perform (.pop .short)).2 = s := by
  intro requests s
  obtain ⟨hRun, -, -, hPop, -, hStep⟩ := refines_byte_list requests
  have hBehaves : Behaves [] requests [.done, .done, .value .int 0x10007] [] :=
    .cons (.push (by decide)) (.cons (.push (by decide)) (.cons (.pop rfl) .nil))
  obtain ⟨hReplies, hBytes⟩ := (hRun _ _).mp hBehaves
  have hRefused := (hPop .short).mpr (by rw [← hBytes]; decide)
  exact ⟨hReplies.symm, hBytes.symm, hRefused, (hStep _).2 _ hRefused⟩

end Stack

end Formula
