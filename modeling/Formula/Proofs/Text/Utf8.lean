import Formula.Source
import Formula.Proofs.Signature

/-!
# Texts as bytes

A character below 128 is one byte of the UTF-8 form, which is its number, and the bytes of all other
characters are 128 or more (`le_of_mem_utf8EncodeChar`). So what is said about the bytes of a text
can be said about its characters as far as they are ASCII (`forall_bytes_iff`), and a text that is
cut at its first NUL character is cut at its first zero byte (`bytes_ofString`).
-/

namespace Formula

namespace Text

/-! ## Characters -/

theorem utf8EncodeChar_of_ascii {c : Char} (h : c.toNat < 128) :
    String.utf8EncodeChar c = [UInt8.ofNat c.toNat] :=
  if_pos (Nat.le_of_lt_succ h)

theorem utf8Size_of_ascii {c : Char} (h : c.toNat < 128) : c.utf8Size = 1 := by
  rw [← String.length_utf8EncodeChar, utf8EncodeChar_of_ascii h, List.length_singleton]

/-- The bytes of a character that is not ASCII are not ASCII. -/
theorem le_of_mem_utf8EncodeChar {c : Char} (h : 128 ≤ c.toNat) {byte : UInt8}
    (hMem : byte ∈ String.utf8EncodeChar c) : 128 ≤ byte.toNat := by
  have hLarge : ¬c.val.toNat ≤ 127 := Nat.not_le.mpr h
  have hByte (n : Nat) (hMin : 128 ≤ n) (hMax : n < 256) : 128 ≤ (UInt8.ofNat n).toNat := by
    rw [UInt8.toNat_ofNat', Nat.mod_eq_of_lt hMax]
    exact hMin
  -- two, three or four bytes, all of them with the highest bit set
  unfold String.utf8EncodeChar at hMem
  simp only [if_neg hLarge] at hMem
  split_ifs at hMem
  all_goals
    simp only [List.mem_cons, List.not_mem_nil, or_false] at hMem
  · rcases hMem with rfl | rfl <;> exact hByte _ (by omega) (by omega)
  · rcases hMem with rfl | rfl | rfl <;> exact hByte _ (by omega) (by omega)
  · rcases hMem with rfl | rfl | rfl | rfl <;> exact hByte _ (by omega) (by omega)

theorem exists_utf8EncodeChar {c : Char} (h : 128 ≤ c.toNat) :
    ∃ byte more, String.utf8EncodeChar c = byte :: more ∧ 128 ≤ byte.toNat := by
  cases hBytes : String.utf8EncodeChar c with
  | nil =>
    have hLength := String.length_utf8EncodeChar c
    rw [hBytes] at hLength
    exact absurd hLength.symm (Nat.ne_of_gt c.utf8Size_pos)
  | cons byte more =>
    exact ⟨byte, more, rfl, le_of_mem_utf8EncodeChar h (hBytes ▸ List.mem_cons_self ..)⟩

/-! ## Texts -/

theorem bytes_cons (c : Char) (text : List Char) :
    bytes (c :: text) = String.utf8EncodeChar c ++ bytes text := rfl

theorem bytes_append (text more : List Char) : bytes (text ++ more) = bytes text ++ bytes more :=
  List.flatMap_append

theorem length_bytes (text : List Char) : (bytes text).length = byteLength text := by
  induction text with
  | nil => rfl
  | cons c text ih =>
    rw [bytes_cons, List.length_append, String.length_utf8EncodeChar, ih, byteLength_cons]

theorem bytes_of_ascii {text : List Char} (h : ∀ c ∈ text, c.toNat < 128) :
    bytes text = text.map fun c => UInt8.ofNat c.toNat := by
  induction text with
  | nil => rfl
  | cons c text ih =>
    obtain ⟨hFirst, hRest⟩ := List.forall_mem_cons.mp h
    rw [bytes_cons, utf8EncodeChar_of_ascii hFirst, ih hRest]
    rfl

theorem byteLength_ascii {text : List Char} (h : ∀ c ∈ text, c.toNat < 128) :
    byteLength text = text.length :=
  byteLength_of_ascii fun c hMem => utf8Size_of_ascii (h c hMem)

/-- A property of bytes that no byte above ASCII has holds of all bytes of a text if and only if it
holds of all its characters. -/
theorem forall_bytes_iff {P : UInt8 → Prop} {Q : Char → Prop} {text : List Char}
    (hAscii : ∀ c : Char, c.toNat < 128 → (P (UInt8.ofNat c.toNat) ↔ Q c))
    (hByte : ∀ byte : UInt8, 128 ≤ byte.toNat → ¬P byte)
    (hChar : ∀ c : Char, 128 ≤ c.toNat → ¬Q c) :
    (∀ byte ∈ bytes text, P byte) ↔ ∀ c ∈ text, Q c := by
  induction text with
  | nil => exact iff_of_true nofun nofun
  | cons c text ih =>
    rw [bytes_cons, List.forall_mem_append, ih, List.forall_mem_cons]
    refine and_congr_left fun _ => ?_
    by_cases hSmall : c.toNat < 128
    · rw [utf8EncodeChar_of_ascii hSmall, List.forall_mem_singleton]
      exact hAscii c hSmall
    · have hLarge := Nat.le_of_not_lt hSmall
      obtain ⟨byte, more, hBytes, hFirst⟩ := exists_utf8EncodeChar hLarge
      refine iff_of_false (fun hAll => ?_) (hChar c hLarge)
      exact hByte byte hFirst (hAll byte (hBytes ▸ List.mem_cons_self ..))

/-- Bytes and characters that agree on ASCII, and treat everything else alike, end a text at the same
place. -/
theorem bytes_takeWhile {p : UInt8 → Bool} {q : Char → Bool} {other : Bool}
    (hAscii : ∀ c : Char, c.toNat < 128 → p (UInt8.ofNat c.toNat) = q c)
    (hByte : ∀ byte : UInt8, 128 ≤ byte.toNat → p byte = other)
    (hChar : ∀ c : Char, 128 ≤ c.toNat → q c = other) (text : List Char) :
    bytes (text.takeWhile q) = (bytes text).takeWhile p := by
  induction text with
  | nil => rfl
  | cons c text ih =>
    by_cases hSmall : c.toNat < 128
    · rw [bytes_cons, utf8EncodeChar_of_ascii hSmall, List.singleton_append, List.takeWhile_cons,
        List.takeWhile_cons, hAscii c hSmall]
      split
      · rw [bytes_cons, utf8EncodeChar_of_ascii hSmall, List.singleton_append, ih]
      · rfl
    · have hLarge := Nat.le_of_not_lt hSmall
      cases other with
      | true =>
        rw [List.takeWhile_cons_of_pos (hChar c hLarge), bytes_cons, bytes_cons,
          List.takeWhile_append_of_pos fun byte hMem =>
            hByte byte (le_of_mem_utf8EncodeChar hLarge hMem), ih]
      | false =>
        obtain ⟨byte, more, hBytes, hFirst⟩ := exists_utf8EncodeChar hLarge
        have hStop : ¬p byte = true := by simp [hByte byte hFirst]
        rw [List.takeWhile_cons_of_neg (by simp [hChar c hLarge]), bytes_cons, hBytes,
          List.cons_append, List.takeWhile_cons_of_neg hStop]
        rfl

/-- The bytes before the first occurrence of an ASCII character are those of the characters before
it. -/
theorem bytes_takeWhile_ne {stop : Char} (hStop : stop.toNat < 128) (text : List Char) :
    bytes (text.takeWhile (· ≠ stop)) =
      (bytes text).takeWhile (· ≠ UInt8.ofNat stop.toNat) := by
  have hVal : (UInt8.ofNat stop.toNat).toNat = stop.toNat := by
    rw [UInt8.toNat_ofNat', Nat.mod_eq_of_lt (by omega)]
  refine bytes_takeWhile (fun c hSmall => decide_eq_decide.mpr (not_congr ?_))
    (fun byte hLarge => decide_eq_true ?_) (fun c hLarge => decide_eq_true ?_) text
  · rw [← Char.toNat_inj, ← UInt8.toNat_inj, hVal, UInt8.toNat_ofNat',
      Nat.mod_eq_of_lt (by omega)]
  · rintro rfl
    omega
  · rintro rfl
    omega

/-! ## Cutting -/

theorem dropBytes_append (before after : List Char) :
    dropBytes (byteLength before) (before ++ after) = some after := by
  induction before with
  | nil => exact dropBytes.eq_1 after
  | cons c before ih =>
    obtain ⟨n, hSize⟩ := Nat.exists_eq_succ_of_ne_zero (Nat.ne_of_gt c.utf8Size_pos)
    have hTotal : byteLength (c :: before) = n + byteLength before + 1 := by
      rw [byteLength_cons, hSize]
      omega
    have hLeft : n + byteLength before + 1 - c.utf8Size = byteLength before := by omega
    rw [hTotal, List.cons_append, dropBytes, if_pos (by omega), hLeft, ih]

theorem takeBytes_append (before after : List Char) :
    takeBytes (byteLength before) (before ++ after) = some before := by
  induction before with
  | nil => exact takeBytes.eq_1 after
  | cons c before ih =>
    obtain ⟨n, hSize⟩ := Nat.exists_eq_succ_of_ne_zero (Nat.ne_of_gt c.utf8Size_pos)
    have hTotal : byteLength (c :: before) = n + byteLength before + 1 := by
      rw [byteLength_cons, hSize]
      omega
    have hLeft : n + byteLength before + 1 - c.utf8Size = byteLength before := by omega
    rw [hTotal, List.cons_append, takeBytes, if_pos (by omega), hLeft, ih]
    rfl

/-- A text that can be cut at an offset begins with a text of that length. -/
theorem takeBytes_eq_some_iff {n : Nat} {text front : List Char} :
    takeBytes n text = some front ↔ ∃ back, text = front ++ back ∧ byteLength front = n := by
  constructor
  · intro h
    induction n, text using takeBytes.induct generalizing front with
    | case1 text =>
      rw [takeBytes, Option.some.injEq] at h
      subst h
      exact ⟨text, rfl, rfl⟩
    | case2 n => cases h
    | case3 n c text hFits ih =>
      rw [takeBytes, if_pos hFits, Option.map_eq_some_iff] at h
      obtain ⟨front, hFront, rfl⟩ := h
      obtain ⟨back, rfl, hLength⟩ := ih hFront
      refine ⟨back, rfl, ?_⟩
      rw [byteLength_cons, hLength]
      omega
    | case4 n c text hLong =>
      rw [takeBytes, if_neg hLong] at h
      cases h
  · rintro ⟨back, rfl, rfl⟩
    exact takeBytes_append front back

theorem slice?_append (before text after : List Char) :
    slice? (byteLength before) (byteLength before + byteLength text) (before ++ (text ++ after)) =
      some text := by
  rw [slice?, dropBytes_append, Option.bind_some, Nat.add_sub_cancel_left, takeBytes_append]

end Text

namespace Source

/-- The source ends at the first zero byte. -/
theorem bytes_ofString (text : String) :
    (ofString text).bytes = (Text.bytes text.toList).takeWhile (· ≠ 0) :=
  Text.bytes_takeWhile_ne (by decide) text.toList

/-- The text between two places is what is written there. -/
theorem slice_append (before text after : List Char) :
    (⟨before ++ (text ++ after)⟩ : Source).slice
        ⟨Text.byteLength before, Text.byteLength before + Text.byteLength text⟩ =
      String.ofList text := by
  have hLength : (⟨before ++ (text ++ after)⟩ : Source).length =
      Text.byteLength before + (Text.byteLength text + Text.byteLength after) := by
    rw [length, Text.byteLength_append, Text.byteLength_append]
  have hStop : min (Text.byteLength before + Text.byteLength text)
      (⟨before ++ (text ++ after)⟩ : Source).length =
        Text.byteLength before + Text.byteLength text := by
    rw [hLength]
    omega
  have hStart : min (Text.byteLength before) (Text.byteLength before + Text.byteLength text) =
      Text.byteLength before := by omega
  simp only [slice, hStop, hStart, Text.slice?_append, Option.getD_some]

end Source

end Formula
