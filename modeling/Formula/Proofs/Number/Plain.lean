import Formula.Number.Layout
import Formula.Proofs.Double
import Formula.Proofs.Number.Shortest
import Formula.Proofs.Tokens

/-!
# The plain form tells doubles apart

A number in positional notation is read as the decimal that its digits write (`value_read`), and a
decimal rounds to one double only. So no two doubles have the same plain form (`plain_injective`):
it shows the sign, and what is behind it is a word, a zero, or a positive number in positional
notation.
-/

namespace Formula

/-- The number itself. -/
def Decimal.value (d : Decimal) : ℚ :=
  d.significand * 10 ^ d.exponent

namespace Layout

open Shortest (Digits)

/-! ## Positional notation -/

/-- The decimal that is read from a text in positional notation. -/
def read (text : List Char) : Decimal :=
  .ofParts (text.takeWhile Char.isDigit) (splitFraction (text.dropWhile Char.isDigit)).1 0

/-- The number that decimal digits write, the highest first. -/
def number (digits : List ℕ) : ℕ :=
  Nat.ofDigits 10 digits.reverse

theorem number_concat (digits : List ℕ) (d : ℕ) :
    number (digits ++ [d]) = 10 * number digits + d := by
  rw [number, List.reverse_append, List.reverse_singleton, List.singleton_append, Nat.ofDigits_cons,
    Nat.add_comm, number]

theorem number_append_zeros (digits : List ℕ) (n : ℕ) :
    number (digits ++ List.replicate n 0) = 10 ^ n * number digits := by
  rw [number, List.reverse_append, List.reverse_replicate, Nat.ofDigits_append,
    Nat.ofDigits_replicate_zero, Nat.zero_add, List.length_replicate, number]

theorem number_zeros_append (digits : List ℕ) (n : ℕ) :
    number (List.replicate n 0 ++ digits) = number digits := by
  rw [number, List.reverse_append, List.reverse_replicate, Nat.ofDigits_append,
    Nat.ofDigits_replicate_zero, Nat.mul_zero, Nat.add_zero, number]

section Digits

variable {digits whole fraction : List ℕ}

theorem isDigit_digitChar {d : ℕ} (h : d < 10) :
    (digitChar d).isDigit = true ∧ (digitChar d).toNat - '0'.toNat = d := by
  revert d
  decide

theorem isDigit_of_mem_chars (h : ∀ d ∈ digits, d < 10) :
    ∀ c ∈ chars digits, c.isDigit = true := by
  intro c hMem
  obtain ⟨d, hd, rfl⟩ := List.mem_map.mp hMem
  exact (isDigit_digitChar (h d hd)).1

theorem ofDigits_chars (h : ∀ d ∈ digits, d < 10) :
    Decimal.ofDigits (chars digits) = number digits := by
  induction digits using List.reverseRecOn with
  | nil => rfl
  | append_singleton digits d ih =>
    obtain ⟨hDigits, hLast⟩ := List.forall_mem_append.mp h
    have hd := (isDigit_digitChar (hLast d (List.mem_singleton_self d))).2
    rw [number_concat, ← ih hDigits, chars, List.map_append, Decimal.ofDigits, List.foldl_append]
    exact congrArg (10 * _ + ·) hd

/-- Digits are read as the number that they write. -/
theorem value_read_digits (hWhole : ∀ d ∈ whole, d < 10) :
    (read (chars whole)).value = number whole := by
  have hTake := takeWhile_whole (isDigit_of_mem_chars hWhole) (.inl rfl)
  have hDrop := dropWhile_whole (isDigit_of_mem_chars hWhole) (.inl rfl)
  rw [List.append_nil] at hTake hDrop
  rw [read, hTake, hDrop, splitFraction_eq (.inl rfl), Decimal.ofParts, Decimal.value]
  simp [ofDigits_chars hWhole]

/-- The same with a point among them, which shifts the number to the right. -/
theorem value_read_fraction (hWhole : ∀ d ∈ whole, d < 10) (hFraction : ∀ d ∈ fraction, d < 10) :
    (read (chars whole ++ '.' :: chars fraction)).value =
      number (whole ++ fraction) * 10 ^ (-fraction.length : ℤ) := by
  have hBoth := List.forall_mem_append.mpr ⟨hWhole, hFraction⟩
  have hTake := takeWhile_whole (isDigit_of_mem_chars hWhole) (.inr ⟨chars fraction, rfl⟩)
  have hDrop := dropWhile_whole (isDigit_of_mem_chars hWhole) (.inr ⟨chars fraction, rfl⟩)
  have hSplit := splitFraction_eq (.inr ⟨_, rfl, isDigit_of_mem_chars hFraction⟩)
  rw [read, hTake, hDrop, hSplit, Decimal.ofParts, Decimal.value, List.drop_one, List.tail_cons]
  rw [chars, chars, ← List.map_append, List.length_map, zero_sub]
  rw [show (whole ++ fraction).map digitChar = chars (whole ++ fraction) from rfl,
    ofDigits_chars hBoth]

theorem zeros_eq (n : ℕ) : zeros n = chars (List.replicate n 0) := by
  rw [chars, List.map_replicate]
  rfl

/-- A number in positional notation is read as what its digits write. -/
theorem value_read_positional {d : Digits} (h : ∀ digit ∈ d.digits, digit < 10) :
    (read (positional d [])).value = d.value := by
  have hZeros (n : ℕ) : ∀ digit ∈ List.replicate n 0, digit < 10 := fun digit hMem =>
    List.eq_of_mem_replicate hMem ▸ by decide
  have hDigits : Nat.ofDigits 10 d.digits.reverse = number d.digits := rfl
  rw [Digits.value, hDigits]
  unfold positional
  split_ifs with hSmall hWhole
  · -- all digits stand behind the point, and maybe zeros in front of them
    have hText : '0' :: '.' :: (zeros d.point.natAbs ++ chars d.digits) =
        chars (List.replicate 1 0) ++
          '.' :: chars (List.replicate d.point.natAbs 0 ++ d.digits) := by
      rw [zeros_eq, chars, chars, chars, chars, List.map_append]
      rfl
    rw [hText, value_read_fraction (hZeros 1) (List.forall_mem_append.mpr ⟨hZeros _, h⟩),
      number_zeros_append, number_zeros_append, List.length_append, List.length_replicate]
    congr 2
    omega
  · -- zeros up to the point
    have hText : chars d.digits ++ zeros (d.point.toNat - d.digits.length) ++ [] =
        chars (d.digits ++ List.replicate (d.point.toNat - d.digits.length) 0) := by
      rw [zeros_eq, chars, chars, chars, List.map_append, List.append_nil]
    have hShift : d.point - d.digits.length = (d.point.toNat - d.digits.length : ℕ) := by omega
    rw [hText, value_read_digits (List.forall_mem_append.mpr ⟨h, hZeros _⟩),
      number_append_zeros, hShift, zpow_natCast]
    push_cast
    ring
  · -- the point among the digits
    rw [value_read_fraction (fun digit hMem => h digit (List.mem_of_mem_take hMem))
      (fun digit hMem => h digit (List.mem_of_mem_drop hMem)), List.take_append_drop,
      List.length_drop]
    congr 2
    omega

end Digits

end Layout

/-! ## Doubles by sign and magnitude -/

namespace Magnitude

open Shortest (Normal)

/-- What a double with these fields is, apart from its sign. -/
def ofFields (exponent fraction : ℕ) : Magnitude :=
  if exponent = 0x7ff then (if fraction = 0 then infinite else nan)
  else if exponent = 0 then (if fraction = 0 then zero else finite fraction (-1074))
  else finite (fraction + 0x10000000000000) (exponent - 1075)

theorem ofFloat_eq (x : Float) : ofFloat x =
    ofFields (x.toBits.toNat / 2 ^ 52 % 2 ^ 11) (x.toBits.toNat % 2 ^ 52) := by
  have hFraction : (x.toBits &&& 0x000fffffffffffff).toNat = x.toBits.toNat % 2 ^ 52 := by
    rw [UInt64.toNat_and, ← Nat.and_two_pow_sub_one_eq_mod]
    rfl
  have hExponent : ((x.toBits >>> 52) &&& 0x7ff).toNat = x.toBits.toNat / 2 ^ 52 % 2 ^ 11 := by
    rw [UInt64.toNat_and, UInt64.toNat_shiftRight, ← Nat.and_two_pow_sub_one_eq_mod,
      ← Nat.shiftRight_eq_div_pow]
    rfl
  rw [ofFloat, hFraction, hExponent]
  rfl

theorem isNegative_eq_true_iff (x : Float) :
    isNegative x = true ↔ x.toBits.toNat / 2 ^ 63 = 1 := by
  rw [isNegative, decide_eq_true_eq, ← UInt64.toNat_inj, UInt64.toNat_shiftRight,
    ← Nat.shiftRight_eq_div_pow]
  rfl

section Fields

variable {exponent fraction : ℕ} {m : ℕ} {q : ℤ}

theorem normal_of_ofFields (hExponent : exponent < 2 ^ 11) (hFraction : fraction < 2 ^ 52)
    (h : ofFields exponent fraction = finite m q) : Normal m q := by
  unfold ofFields at h
  split_ifs at h with hTop hInfinite hZero hNone
  · cases h
    exact ⟨by omega, by omega, by omega, by omega, .inr rfl⟩
  · cases h
    exact ⟨by omega, by omega, by omega, by omega, .inl (by omega)⟩

theorem ofFields_eq_nan_iff :
    ofFields exponent fraction = nan ↔ exponent = 0x7ff ∧ fraction ≠ 0 := by
  unfold ofFields
  split_ifs <;> simp_all

/-- The fields can be told from what the double is, unless it is none. -/
theorem ofFields_inj {exponent' fraction' : ℕ} (hFraction : fraction < 2 ^ 52)
    (hFraction' : fraction' < 2 ^ 52) (hNumber : ofFields exponent fraction ≠ nan)
    (h : ofFields exponent fraction = ofFields exponent' fraction') :
    exponent = exponent' ∧ fraction = fraction' := by
  unfold ofFields at h hNumber
  split_ifs at h hNumber <;> simp at h hNumber <;> omega

end Fields

/-- Whether a number that is neither zero nor infinite has as many bits as there is room for. -/
def Proper (a : Magnitude) : Prop :=
  ∀ m q, a = finite m q → Normal m q

theorem proper_ofFloat (x : Float) : (ofFloat x).Proper := by
  intro m q h
  rw [ofFloat_eq] at h
  exact normal_of_ofFields (Nat.mod_lt _ (by decide)) (Nat.mod_lt _ (by decide)) h

/-- There is only one bit pattern for what is not a number. -/
theorem toBits_of_nan {x : Float} (h : ofFloat x = nan) :
    x.toBits.toBitVec = Float.Model.UnpackedFloat.packedNaN Double.format := by
  rw [ofFloat_eq, ofFields_eq_nan_iff] at h
  obtain ⟨hTop, hFraction⟩ := h
  refine x.toModel.valid.eq_packedNaN (BitVec.eq_of_toNat_eq ?_) fun hZero => hFraction ?_
  · have hExtract := BitVec.extractLsb_toNat 62 52 x.toBits.toBitVec
    rw [Nat.shiftRight_eq_div_pow] at hExtract
    exact hExtract.trans hTop
  · have hExtract := BitVec.extractLsb_toNat 51 0 x.toBits.toBitVec
    rw [Nat.shiftRight_zero] at hExtract
    exact hExtract.symm.trans (congrArg BitVec.toNat hZero)

/-- A double is its magnitude and, if it is a number, its sign. -/
theorem eq_of_ofFloat {x y : Float} (h : ofFloat x = ofFloat y)
    (hSign : ofFloat x ≠ nan → (isNegative x = true ↔ isNegative y = true)) : x = y := by
  suffices hBits : x.toBits = y.toBits by
    rw [← Float.ofBits_toBits x, hBits, Float.ofBits_toBits]
  by_cases hNaN : ofFloat x = nan
  · rw [← UInt64.toBitVec_inj, toBits_of_nan hNaN, toBits_of_nan (h ▸ hNaN)]
  · have hIff := hSign hNaN
    rw [isNegative_eq_true_iff, isNegative_eq_true_iff] at hIff
    rw [ofFloat_eq] at hNaN
    rw [ofFloat_eq, ofFloat_eq] at h
    obtain ⟨hExponent, hFraction⟩ :=
      ofFields_inj (Nat.mod_lt _ (by decide)) (Nat.mod_lt _ (by decide)) hNaN h
    have hLess : x.toBits.toNat < 2 ^ 64 := x.toBits.toNat_lt
    have hLess' : y.toBits.toNat < 2 ^ 64 := y.toBits.toNat_lt
    rw [← UInt64.toNat_inj]
    omega

end Magnitude

/-! ## The plain form -/

namespace Layout

open Shortest (Normal Rounds)

/-- What is written behind the sign. -/
def body : Magnitude → List Char
  | .nan => "NaN".toList
  | .infinite => "inf".toList
  | .zero => "0".toList
  | .finite m q => positional (Shortest.digits .up m q) []

theorem toList_plain (x : Float) : (plain x).toList =
    (if Magnitude.ofFloat x ≠ .nan ∧ Magnitude.isNegative x = true then ['-'] else []) ++
      body (Magnitude.ofFloat x) := by
  have hSign : (if Magnitude.isNegative x then "-" else "").toList =
      if Magnitude.isNegative x = true then ['-'] else [] := by
    split_ifs <;> rfl
  unfold plain write
  cases Magnitude.ofFloat x with
  | nan => rfl
  | _ => simp [body, String.toList_append, hSign]

section Bodies

variable {m : ℕ} {q : ℤ}

/-- What is written for a positive number is read as a number that rounds to it. -/
theorem rounds_read_body (h : Normal m q) :
    0 < (read (body (.finite m q))).value ∧ Rounds m q (read (body (.finite m q))).value := by
  obtain ⟨n, e, hDigits, hPos, hLess, hRounds⟩ := Shortest.exists_digits .up h
  have hTen : ∀ d ∈ (Shortest.Digits.of n e).digits, d < 10 := fun d =>
    Shortest.Digits.lt_ten_of_mem hLess
  rw [body, hDigits, value_read_positional hTen, Shortest.Digits.value_of hLess]
  have hNumber : (0 : ℚ) < n := Nat.cast_pos.mpr hPos
  exact ⟨by positivity, hRounds⟩

/-- A text that begins with neither a digit nor a point is read as zero. -/
theorem value_read_cons {c : Char} (hDigit : c.isDigit = false) (hPoint : c ≠ '.')
    (text : List Char) : (read (c :: text)).value = 0 := by
  have hSplit : (splitFraction (c :: text)).1 = [] := by
    unfold splitFraction
    split
    · rename_i hEq
      exact absurd (List.cons.inj hEq).1 hPoint
    · rfl
  rw [read, List.takeWhile_cons_of_neg (by simp [hDigit]),
    List.dropWhile_cons_of_neg (by simp [hDigit]), hSplit, Decimal.value]
  simp [Decimal.ofParts, Decimal.ofDigits]

/-- What is written behind a sign does not look like one. -/
theorem body_ne_minus {a : Magnitude} (ha : a.Proper) (text : List Char) :
    body a ≠ '-' :: text := by
  intro h
  cases a with
  | finite m q =>
    have hPos := (rounds_read_body (ha m q rfl)).1
    rw [h, value_read_cons rfl (by decide)] at hPos
    exact absurd hPos (lt_irrefl 0)
  | _ => simp [body] at h

theorem value_read_body {a : Magnitude} (h : ∀ m q, a ≠ .finite m q) :
    (read (body a)).value = 0 := by
  cases a with
  | nan => exact value_read_cons rfl (by decide) _
  | infinite => exact value_read_cons rfl (by decide) _
  | zero => simp [body, read, splitFraction, Decimal.ofParts, Decimal.ofDigits, Decimal.value]
  | finite m q => exact absurd rfl (h m q)

/-- Different magnitudes are written differently. -/
theorem body_inj {a b : Magnitude} (ha : a.Proper) (hb : b.Proper) (h : body a = body b) :
    a = b := by
  cases a with
  | finite m q =>
    obtain ⟨hPos, hRounds⟩ := rounds_read_body (ha m q rfl)
    cases b with
    | finite m' q' =>
      obtain ⟨-, hRounds'⟩ := rounds_read_body (hb m' q' rfl)
      rw [h] at hRounds
      obtain ⟨rfl, rfl⟩ := Shortest.eq_of_rounds (ha m q rfl) (hb m' q' rfl) hRounds hRounds'
      rfl
    | _ =>
      rw [h, value_read_body fun _ _ h => by cases h] at hPos
      exact absurd hPos (lt_irrefl 0)
  | _ =>
    cases b with
    | finite m' q' =>
      obtain ⟨hPos, -⟩ := rounds_read_body (hb m' q' rfl)
      rw [← h, value_read_body fun _ _ h => by cases h] at hPos
      exact absurd hPos (lt_irrefl 0)
    | _ => first | rfl | simp [body] at h

end Bodies

end Layout

/-- No two doubles have the same plain form. -/
theorem plain_injective : Function.Injective plain := by
  intro x y h
  have hText := congrArg String.toList h
  rw [Layout.toList_plain, Layout.toList_plain] at hText
  have hx := Magnitude.proper_ofFloat x
  have hy := Magnitude.proper_ofFloat y
  split_ifs at hText with hMinus hMinus' hMinus'
  · have hSame := Layout.body_inj hx hy (List.cons.inj hText).2
    exact Magnitude.eq_of_ofFloat hSame fun _ => iff_of_true hMinus.2 hMinus'.2
  · exact absurd hText.symm (Layout.body_ne_minus hy _)
  · exact absurd hText (Layout.body_ne_minus hx _)
  · have hSame := Layout.body_inj hx hy hText
    exact Magnitude.eq_of_ofFloat hSame fun hNumber =>
      iff_of_false (not_and.mp hMinus hNumber) (not_and.mp hMinus' (hSame ▸ hNumber))

end Formula
