import Formula.Number.Shortest
import Mathlib

/-!
# Shortest digits and the double they belong to

The reals that round to a double form an interval, and those of different doubles have no real in
common (`eq_of_rounds`): where two of them touch, one of the doubles is odd and its interval open.
The search for digits ends with a decimal in the interval of the double (`exists_digits`), for on
the last grids that are tried, neighbouring decimals are nearer to each other than the double is to
the ends of its interval.
-/

namespace Formula.Shortest

/-! ## Powers of two and of ten -/

/-- A power whose exponent may be negative, as a quotient. -/
theorem pow_toNat_div (b : ℚ) (e : ℤ) : b ^ e.toNat / b ^ (-e).toNat = b ^ e := by
  obtain ⟨n, rfl | rfl⟩ := e.eq_nat_or_neg
  · simp
  · simp

/-- Ten is at most `2 ^ (196 / 59)` and at least `2 ^ (93 / 28)`. -/
theorem ten_zpow_le_two_zpow {d s : ℤ} (hPos : 0 ≤ d → 196 * d ≤ 59 * s)
    (hNeg : d < 0 → 93 * d ≤ 28 * s) : (10 : ℚ) ^ d ≤ 2 ^ s := by
  have hSwap (b : ℚ) (e n : ℤ) : (b ^ e) ^ n = (b ^ n) ^ e := by
    rw [← zpow_mul, ← zpow_mul, mul_comm]
  rcases lt_or_ge d 0 with hd | hd
  · have hInverse : ((2 : ℚ) ^ (93 : ℤ)) ^ (-d) ≤ (10 ^ (28 : ℤ)) ^ (-d) :=
      zpow_le_zpow_left₀ (by omega) (by positivity) (by norm_num)
    have hPower : ((10 : ℚ) ^ d) ^ 28 ≤ (2 ^ s) ^ 28 := by
      rw [← zpow_natCast, ← zpow_natCast]
      calc ((10 : ℚ) ^ d) ^ (28 : ℤ) = ((10 ^ (28 : ℤ)) ^ (-d))⁻¹ := by
            rw [hSwap, zpow_neg, inv_inv]
        _ ≤ ((2 ^ (93 : ℤ)) ^ (-d))⁻¹ := inv_anti₀ (by positivity) hInverse
        _ = 2 ^ (93 * d) := by rw [zpow_neg, inv_inv, ← zpow_mul]
        _ ≤ 2 ^ (28 * s) := zpow_le_zpow_right₀ (by norm_num) (hNeg hd)
        _ = (2 ^ s) ^ (28 : ℤ) := by rw [zpow_mul, hSwap]
    exact le_of_pow_le_pow_left₀ (by decide) (by positivity) hPower
  · have hPower : ((10 : ℚ) ^ d) ^ 59 ≤ (2 ^ s) ^ 59 := by
      rw [← zpow_natCast, ← zpow_natCast]
      calc ((10 : ℚ) ^ d) ^ (59 : ℤ) = (10 ^ (59 : ℤ)) ^ d := hSwap ..
        _ ≤ (2 ^ (196 : ℤ)) ^ d := zpow_le_zpow_left₀ hd (by positivity) (by norm_num)
        _ = 2 ^ (196 * d) := by rw [← zpow_mul]
        _ ≤ 2 ^ (59 * s) := zpow_le_zpow_right₀ (by norm_num) (hPos hd)
        _ = (2 ^ s) ^ (59 : ℤ) := by rw [zpow_mul, hSwap]
    exact le_of_pow_le_pow_left₀ (by decide) (by positivity) hPower

/-! ## Rational numbers -/

/-- The number itself. -/
def Ratio.value (r : Ratio) : ℚ :=
  r.num / r.den

theorem value_grid (n : ℕ) (e : ℤ) : (grid n e).value = n * 10 ^ e := by
  rw [← pow_toNat_div 10 e, ← mul_div_assoc]
  simp [Ratio.value, grid]

theorem den_grid_pos (n : ℕ) (e : ℤ) : 0 < (grid n e).den :=
  Nat.pow_pos (by decide)

/-- Products over a cross tell which of two quotients is less. -/
theorem mul_le_mul_iff_div {a b c d : ℕ} (hb : 0 < b) (hd : 0 < d) :
    a * d ≤ c * b ↔ (a : ℚ) / b ≤ c / d := by
  rw [div_le_div_iff₀ (by exact_mod_cast hb) (by exact_mod_cast hd)]
  exact_mod_cast Iff.rfl

theorem mul_lt_mul_iff_div {a b c d : ℕ} (hb : 0 < b) (hd : 0 < d) :
    a * d < c * b ↔ (a : ℚ) / b < c / d := by
  rw [div_lt_div_iff₀ (by exact_mod_cast hb) (by exact_mod_cast hd)]
  exact_mod_cast Iff.rfl

/-! ## Intervals -/

/-- Whether `m * 2 ^ q` is a positive double, with as many bits in `m` as there is room for. -/
structure Normal (m : ℕ) (q : ℤ) : Prop where
  pos : 0 < m
  lt : m < 2 ^ 53
  least_le : -1074 ≤ q
  le_greatest : q ≤ 971
  full : 2 ^ 52 ≤ m ∨ q = -1074

/-- The distance to the lower end of the interval, in units of `2 ^ (q - 2)`. -/
def gap (m : ℕ) (q : ℤ) : ℕ :=
  if m = 0x10000000000000 ∧ q > -1074 then 1 else 2

/-- Whether a number rounds to the double `m * 2 ^ q`: it lies between the ends of the interval,
which round to it as well if `m` is even. -/
structure Rounds (m : ℕ) (q : ℤ) (x : ℚ) : Prop where
  low_le : (4 * m - gap m q) * 2 ^ (q - 2) ≤ x
  le_high : x ≤ (4 * m + 2) * 2 ^ (q - 2)
  low_ne : m % 2 = 1 → (4 * m - gap m q) * 2 ^ (q - 2) ≠ x
  high_ne : m % 2 = 1 → x ≠ (4 * m + 2) * 2 ^ (q - 2)

theorem gap_cases (m : ℕ) (q : ℤ) :
    gap m q = 1 ∧ m = 2 ^ 52 ∧ -1074 < q ∨ gap m q = 2 ∧ ¬(m = 2 ^ 52 ∧ -1074 < q) := by
  unfold gap
  split_ifs with h
  · exact .inl ⟨rfl, h⟩
  · exact .inr ⟨rfl, h⟩

section Ends

variable {m : ℕ} {q : ℤ}

theorem den_pos (m : ℕ) (q : ℤ) : 0 < (Interval.of m q).den :=
  Nat.pow_pos (by decide)

/-- The unit of the numbers in an interval. -/
theorem two_pow_div_two_pow (q : ℤ) :
    ((2 ^ (q - 2).toNat : ℕ) : ℚ) / (2 ^ (2 - q).toNat : ℕ) = 2 ^ (q - 2) := by
  rw [← pow_toNat_div 2 (q - 2), neg_sub]
  norm_cast

theorem value_div_den (m : ℕ) (q : ℤ) :
    ((Interval.of m q).value / (Interval.of m q).den : ℚ) = 4 * m * 2 ^ (q - 2) := by
  rw [← two_pow_div_two_pow, ← mul_div_assoc]
  show ((4 * m * 2 ^ (q - 2).toNat : ℕ) : ℚ) / (2 ^ (2 - q).toNat : ℕ) = _
  rw [Nat.cast_mul, Nat.cast_mul, Nat.cast_ofNat]

theorem low_div_den (hm : 0 < m) (q : ℤ) :
    ((Interval.of m q).low / (Interval.of m q).den : ℚ) = (4 * m - gap m q) * 2 ^ (q - 2) := by
  have hGap : gap m q ≤ 4 * m := by
    rcases gap_cases m q with h | h <;> omega
  rw [← two_pow_div_two_pow, ← mul_div_assoc]
  show (((4 * m - gap m q) * 2 ^ (q - 2).toNat : ℕ) : ℚ) / (2 ^ (2 - q).toNat : ℕ) = _
  rw [Nat.cast_mul, Nat.cast_sub hGap, Nat.cast_mul, Nat.cast_ofNat]

theorem high_div_den (m : ℕ) (q : ℤ) :
    ((Interval.of m q).high / (Interval.of m q).den : ℚ) = (4 * m + 2) * 2 ^ (q - 2) := by
  rw [← two_pow_div_two_pow, ← mul_div_assoc]
  show (((4 * m + 2) * 2 ^ (q - 2).toNat : ℕ) : ℚ) / (2 ^ (2 - q).toNat : ℕ) = _
  rw [Nat.cast_mul, Nat.cast_add, Nat.cast_mul, Nat.cast_ofNat, Nat.cast_ofNat]

theorem contains_iff (hm : 0 < m) (q : ℤ) (r : Ratio) (hr : 0 < r.den) :
    (Interval.of m q).contains r = true ↔ Rounds m q r.value := by
  have hClosed : (Interval.of m q).closed = decide (m % 2 = 0) := rfl
  unfold Interval.contains
  rw [hClosed]
  split_ifs with hEven
  · rw [Bool.and_eq_true, decide_eq_true_eq, decide_eq_true_eq, mul_le_mul_iff_div (den_pos m q) hr,
      mul_le_mul_iff_div hr (den_pos m q), low_div_den hm, high_div_den]
    rw [decide_eq_true_eq] at hEven
    exact ⟨fun h => ⟨h.1, h.2, by omega, by omega⟩, fun h => ⟨h.low_le, h.le_high⟩⟩
  · rw [Bool.and_eq_true, decide_eq_true_eq, decide_eq_true_eq, mul_lt_mul_iff_div (den_pos m q) hr,
      mul_lt_mul_iff_div hr (den_pos m q), low_div_den hm, high_div_den]
    rw [decide_eq_true_eq] at hEven
    exact ⟨fun h => ⟨h.1.le, h.2.le, fun _ => h.1.ne, fun _ => h.2.ne⟩,
      fun h => ⟨h.low_le.lt_of_ne (h.low_ne (by omega)), h.le_high.lt_of_ne (h.high_ne (by omega))⟩⟩

end Ends

/-! ## Intervals of different doubles -/

section Disjoint

variable {m m' : ℕ} {q q' : ℤ} {x : ℚ}

/-- The interval of a double ends where that of a greater one begins or before, and if it ends
there, one of the two doubles is odd. -/
theorem high_le_low (h : Normal m q) (h' : Normal m' q') (hLess : q < q' ∨ q = q' ∧ m < m') :
    ((4 * m + 2) * 2 ^ (q - 2) : ℚ) < (4 * m' - gap m' q') * 2 ^ (q' - 2) ∨
      ((4 * m + 2) * 2 ^ (q - 2) : ℚ) ≤ (4 * m' - gap m' q') * 2 ^ (q' - 2) ∧
        (m % 2 = 1 ∨ m' % 2 = 1) := by
  have hUnit : (0 : ℚ) < 2 ^ (q - 2) := by positivity
  rcases hLess with hq | ⟨rfl, hm⟩
  · -- the units of the greater double are at least twice as large
    have hTwice : (2 : ℚ) * 2 ^ (q - 2) ≤ 2 ^ (q' - 2) := by
      rw [← zpow_one_add₀ (by norm_num)]
      exact zpow_le_zpow_right₀ (by norm_num) (by omega)
    have hLow : ((2 ^ 54 - 1 : ℕ) : ℚ) ≤ 4 * m' - gap m' q' := by
      have hNat : 2 ^ 54 - 1 + gap m' q' ≤ 4 * m' := by
        have hFull := h'.full
        have hLeast := h.least_le
        rcases gap_cases m' q' with hGap | hGap <;> omega
      rw [le_sub_iff_add_le]
      exact_mod_cast hNat
    have hBound : ((2 ^ 54 - 1 : ℕ) : ℚ) * (2 * 2 ^ (q - 2)) ≤
        (4 * m' - gap m' q') * 2 ^ (q' - 2) :=
      mul_le_mul hLow hTwice (by positivity) (le_trans (by positivity) hLow)
    have hLt := h.lt
    rcases Nat.mod_two_eq_zero_or_one m with hEven | hOdd
    · refine .inl (lt_of_lt_of_le ?_ hBound)
      have hHigh : (4 * m + 2 : ℚ) < (2 ^ 54 - 1 : ℕ) * 2 := by
        exact_mod_cast (show 4 * m + 2 < (2 ^ 54 - 1) * 2 by omega)
      rw [← mul_assoc]
      exact mul_lt_mul_of_pos_right hHigh hUnit
    · refine .inr ⟨le_trans ?_ hBound, .inl hOdd⟩
      have hHigh : (4 * m + 2 : ℚ) ≤ (2 ^ 54 - 1 : ℕ) * 2 := by
        exact_mod_cast (show 4 * m + 2 ≤ (2 ^ 54 - 1) * 2 by omega)
      rw [← mul_assoc]
      exact mul_le_mul_of_nonneg_right hHigh hUnit.le
  · -- two even numbers are not neighbours
    have hGap : gap m' q ≤ 2 := by
      rcases gap_cases m' q with hGap | hGap <;> omega
    by_cases hNext : m' = m + 1
    · refine .inr ⟨mul_le_mul_of_nonneg_right ?_ hUnit.le, by omega⟩
      rw [le_sub_iff_add_le]
      exact_mod_cast (show 4 * m + 2 + gap m' q ≤ 4 * m' by omega)
    · refine .inl (mul_lt_mul_of_pos_right ?_ hUnit)
      rw [lt_sub_iff_add_lt]
      exact_mod_cast (show 4 * m + 2 + gap m' q < 4 * m' by omega)

theorem not_rounds_of_less (h : Normal m q) (h' : Normal m' q')
    (hLess : q < q' ∨ q = q' ∧ m < m') (hx : Rounds m q x) : ¬Rounds m' q' x := by
  intro hx'
  rcases high_le_low h h' hLess with hLt | ⟨hLe, hOdd⟩
  · exact absurd (hx'.low_le.trans hx.le_high) (not_le.mpr hLt)
  · -- the intervals touch at `x`
    have hLow := le_antisymm hx'.low_le (hx.le_high.trans hLe)
    have hHigh := le_antisymm hx.le_high (hLe.trans hx'.low_le)
    exact hOdd.elim (fun hOdd => hx.high_ne hOdd hHigh) (fun hOdd => hx'.low_ne hOdd hLow)

/-- A number rounds to one double only. -/
theorem eq_of_rounds (h : Normal m q) (h' : Normal m' q') (hx : Rounds m q x)
    (hx' : Rounds m' q' x) : m = m' ∧ q = q' := by
  rcases lt_trichotomy q q' with hq | rfl | hq
  · exact absurd hx' (not_rounds_of_less h h' (.inl hq) hx)
  · rcases lt_trichotomy m m' with hm | rfl | hm
    · exact absurd hx' (not_rounds_of_less h h' (.inr ⟨rfl, hm⟩) hx)
    · exact ⟨rfl, rfl⟩
    · exact absurd hx (not_rounds_of_less h' h (.inr ⟨rfl, hm⟩) hx')
  · exact absurd hx (not_rounds_of_less h' h (.inl hq) hx')

end Disjoint

/-! ## The search -/

section Search

variable {tie : Tie} {i : Interval}

theorem onGrid?_eq_some {e : ℤ} {n : ℕ} (h : onGrid? tie i e = some n) :
    0 < n ∧ i.contains (grid n e) = true := by
  unfold onGrid? at h
  simp only [Bool.and_eq_true, decide_eq_true_eq] at h
  split_ifs at h with hBoth hUp hDown hUp
  · cases h
    exact ⟨Nat.succ_pos _, hBoth.2⟩
  · cases h
    exact hBoth.1
  · cases h
    exact hDown
  · cases h
    exact ⟨Nat.succ_pos _, hUp⟩

/-- A grid has a hit if the neighbour below the double is one. -/
theorem isSome_onGrid? {e : ℤ} {down : ℕ}
    (hDown : i.value * (grid 1 e).den / (i.den * (grid 1 e).num) = down) (hPos : 0 < down)
    (hContains : i.contains (grid down e) = true) : (onGrid? tie i e).isSome = true := by
  unfold onGrid?
  simp only [hDown, hPos, hContains, decide_true, Bool.and_true, Bool.true_and, if_true]
  split_ifs <;> rfl

/-- The search ends on a grid with a hit if there is one among those that are tried. -/
theorem search_spec : ∀ (fuel : ℕ) {e : ℤ},
    (∃ j < fuel, (onGrid? tie i (e - j)).isSome = true) →
      ∃ n e', search tie i fuel e = (n, e') ∧ e - fuel < e' ∧ 0 < n ∧
        i.contains (grid n e') = true
  | 0, _, ⟨_, hLess, _⟩ => absurd hLess (Nat.not_lt_zero _)
  | fuel + 1, e, ⟨j, hLess, hSome⟩ => by
    rw [search]
    cases hGrid : onGrid? tie i e with
    | some n => exact ⟨n, e, rfl, by omega, onGrid?_eq_some hGrid⟩
    | none =>
      cases j with
      | zero => simp [hGrid] at hSome
      | succ j =>
        have hLater : (onGrid? tie i (e - 1 - j)).isSome = true := by
          rwa [sub_sub, add_comm 1, ← Nat.cast_succ]
        obtain ⟨n, e', hSearch, hLow, hHit⟩ := search_spec fuel ⟨j, by omega, hLater⟩
        exact ⟨n, e', hSearch, by omega, hHit⟩

end Search

/-! ## The first grid -/

section FirstGrid

variable {num den : ℕ}

/-- The difference of the logarithms of two numbers tells their quotient up to a factor of two. -/
theorem two_zpow_log2 (hNum : 0 < num) (hDen : 0 < den) :
    (2 : ℚ) ^ ((num.log2 : ℤ) - den.log2 - 1) ≤ num / den ∧
      (num / den : ℚ) ≤ 2 ^ ((num.log2 : ℤ) - den.log2 + 1) := by
  have hNumLow : ((2 ^ num.log2 : ℕ) : ℚ) ≤ num :=
    Nat.cast_le.mpr (Nat.log2_self_le hNum.ne')
  have hNumHigh : (num : ℚ) ≤ (2 ^ (num.log2 + 1) : ℕ) := Nat.cast_le.mpr Nat.lt_log2_self.le
  have hDenLow : ((2 ^ den.log2 : ℕ) : ℚ) ≤ den :=
    Nat.cast_le.mpr (Nat.log2_self_le hDen.ne')
  have hDenHigh : (den : ℚ) ≤ (2 ^ (den.log2 + 1) : ℕ) := Nat.cast_le.mpr Nat.lt_log2_self.le
  have hPos : (0 : ℚ) < den := Nat.cast_pos.mpr hDen
  constructor
  · calc (2 : ℚ) ^ ((num.log2 : ℤ) - den.log2 - 1)
        = (2 ^ num.log2 : ℕ) / (2 ^ (den.log2 + 1) : ℕ) := by
          rw [sub_sub, zpow_sub₀ (by norm_num), ← Nat.cast_succ, zpow_natCast, zpow_natCast]
          norm_cast
      _ ≤ num / den := div_le_div₀ (by positivity) hNumLow hPos hDenHigh
  · calc (num / den : ℚ) ≤ (2 ^ (num.log2 + 1) : ℕ) / (2 ^ den.log2 : ℕ) :=
          div_le_div₀ (by positivity) hNumHigh (by positivity) hDenLow
      _ = 2 ^ ((num.log2 : ℤ) - den.log2 + 1) := by
          rw [sub_add_eq_add_sub, zpow_sub₀ (by norm_num), ← Nat.cast_succ, zpow_natCast,
            zpow_natCast]
          norm_cast

/-- The exponent is raised only while the power of ten stays below the quotient. -/
theorem raise_spec (hDen : 0 < den) : ∀ (fuel : ℕ) {e : ℤ}, (10 : ℚ) ^ e ≤ num / den →
    (10 : ℚ) ^ raise num den fuel e ≤ num / den ∧ e ≤ raise num den fuel e
  | 0, _, h => ⟨h, le_rfl⟩
  | fuel + 1, e, h => by
    rw [raise]
    split_ifs with hNext
    · rw [mul_le_mul_iff_div (den_grid_pos ..) hDen] at hNext
      have hValue := value_grid 1 (e + 1)
      rw [Nat.cast_one, one_mul] at hValue
      have hPower : (10 : ℚ) ^ (e + 1) ≤ num / den := by
        rw [← hValue]
        exact hNext
      obtain ⟨hRaised, hLe⟩ := raise_spec hDen fuel hPower
      exact ⟨hRaised, by omega⟩
    · exact ⟨h, le_rfl⟩

/-- The power of ten that the search begins with is not greater than the quotient, and not less by
very much. -/
theorem magnitude_spec {a b : ℤ} (hNum : 0 < num) (hDen : 0 < den) (ha : -1074 ≤ a)
    (hb : b ≤ 1024) (hLow : (2 : ℚ) ^ a ≤ num / den) (hHigh : (num / den : ℚ) ≤ 2 ^ b) :
    (10 : ℚ) ^ magnitude num den ≤ num / den ∧
      2 * (num / den : ℚ) ≤ 10 ^ (magnitude num den + 380) := by
  obtain ⟨hAbove, hBelow⟩ := two_zpow_log2 hNum hDen
  have hLeast := hLow.trans hBelow
  have hGreatest := hAbove.trans hHigh
  rw [zpow_le_zpow_iff_right₀ (by norm_num)] at hLeast hGreatest
  have hTwice : 2 * (num / den : ℚ) ≤ 2 ^ ((num.log2 : ℤ) - den.log2 + 2) := by
    rw [show (num.log2 : ℤ) - den.log2 + 2 = 1 + ((num.log2 : ℤ) - den.log2 + 1) by ring,
      zpow_one_add₀ (by norm_num)]
    exact mul_le_mul_of_nonneg_left hBelow (by norm_num)
  unfold magnitude
  generalize (num.log2 : ℤ) - den.log2 = t at *
  have hStart : (10 : ℚ) ^ (t * 30103 / 100000 - 2) ≤ num / den :=
    (ten_zpow_le_two_zpow (by omega) (by omega)).trans hAbove
  obtain ⟨hRaised, hLe⟩ := raise_spec hDen 5 hStart
  refine ⟨hRaised, hTwice.trans ?_⟩
  generalize raise num den 5 (t * 30103 / 100000 - 2) = k at *
  have hInverse := ten_zpow_le_two_zpow (d := -(k + 380)) (s := -(t + 2)) (by omega) (by omega)
  rw [zpow_neg, zpow_neg] at hInverse
  exact (inv_le_inv₀ (by positivity) (by positivity)).mp hInverse

end FirstGrid

/-! ## Digits -/

section Digits

variable {m : ℕ} {q : ℤ}

/-- The neighbour below a double on a grid rounds to it if the grid is fine enough. -/
theorem rounds_of_near (h : Normal m q) {e : ℤ} {down : ℕ}
    (hFine : (10 : ℚ) ^ 17 * 10 ^ e ≤ 4 * m * 2 ^ (q - 2))
    (hDown : (down * 10 ^ e : ℚ) ≤ 4 * m * 2 ^ (q - 2))
    (hUp : (4 * m * 2 ^ (q - 2) : ℚ) < (down + 1) * 10 ^ e) :
    0 < down ∧ Rounds m q (down * 10 ^ e) := by
  have hUnit : (0 : ℚ) < 2 ^ (q - 2) := by positivity
  have hGrid : (0 : ℚ) < 10 ^ e := by positivity
  have hGap : (4 * m : ℚ) ≤ 2 ^ 54 * gap m q := by
    have hLt := h.lt
    rcases gap_cases m q with ⟨hGap, hLeast, -⟩ | ⟨hGap, -⟩ <;> rw [hGap]
    · exact_mod_cast (show 4 * m ≤ 2 ^ 54 * 1 by omega)
    · exact_mod_cast (show 4 * m ≤ 2 ^ 54 * 2 by omega)
  have hStep : (10 ^ e : ℚ) ≤ gap m q * 2 ^ (q - 2) := by
    have hScaled := hFine.trans (mul_le_mul_of_nonneg_right hGap hUnit.le)
    have hPos : (0 : ℚ) ≤ gap m q * 2 ^ (q - 2) := by positivity
    rw [mul_assoc] at hScaled
    linarith
  have hLow : (4 * m - gap m q) * 2 ^ (q - 2) < (down * 10 ^ e : ℚ) := by linarith
  have hHigh : (down * 10 ^ e : ℚ) < (4 * m + 2) * 2 ^ (q - 2) := by linarith
  refine ⟨?_, hLow.le, hHigh.le, fun _ => hLow.ne, fun _ => hHigh.ne⟩
  rcases Nat.eq_zero_or_pos down with rfl | hPos
  · rw [Nat.cast_zero, zero_add, one_mul] at hUp
    linarith
  · exact hPos

theorem isSome_onGrid?_of_fine (tie : Tie) (h : Normal m q) {e : ℤ}
    (hFine : (10 : ℚ) ^ 17 * 10 ^ e ≤ 4 * m * 2 ^ (q - 2)) :
    (onGrid? tie (Interval.of m q) e).isSome = true := by
  have hGrid : (0 : ℚ) < 10 ^ e := by positivity
  have hUnit := value_grid 1 e
  rw [Nat.cast_one, one_mul] at hUnit
  have hQuotient : (((Interval.of m q).value * (grid 1 e).den : ℕ) : ℚ) /
      ((Interval.of m q).den * (grid 1 e).num : ℕ) = 4 * m * 2 ^ (q - 2) / 10 ^ e := by
    rw [Nat.cast_mul, Nat.cast_mul, mul_div_mul_comm, value_div_den, ← inv_div, ← hUnit]
    rfl
  have hFloor := Nat.floor_div_eq_div (K := ℚ) ((Interval.of m q).value * (grid 1 e).den)
    ((Interval.of m q).den * (grid 1 e).num)
  rw [hQuotient] at hFloor
  have hDown := Nat.floor_le (a := (4 * m * 2 ^ (q - 2) / 10 ^ e : ℚ)) (by positivity)
  have hUp := Nat.lt_floor_add_one (4 * m * 2 ^ (q - 2) / 10 ^ e : ℚ)
  rw [le_div_iff₀ hGrid] at hDown
  rw [div_lt_iff₀ hGrid] at hUp
  obtain ⟨hPos, hRounds⟩ := rounds_of_near h hFine hDown hUp
  rw [← value_grid, ← contains_iff h.pos q _ (den_grid_pos ..)] at hRounds
  exact isSome_onGrid? hFloor.symm hPos hRounds

theorem value_bounds (h : Normal m q) :
    (2 : ℚ) ^ q ≤ 4 * m * 2 ^ (q - 2) ∧ (4 * m * 2 ^ (q - 2) : ℚ) ≤ 2 ^ (53 + q) := by
  have hUnit : (2 : ℚ) ^ q = 4 * 2 ^ (q - 2) := by
    rw [show q = 2 + (q - 2) by ring, zpow_add₀ (by norm_num)]
    norm_num
  have hOne : (1 : ℚ) ≤ m := Nat.one_le_cast.mpr h.pos
  have hLt : (m : ℚ) ≤ (2 ^ 53 : ℕ) := Nat.cast_le.mpr h.lt.le
  rw [mul_right_comm, ← hUnit]
  constructor
  · exact le_mul_of_one_le_right (by positivity) hOne
  · rw [zpow_add₀ (by norm_num), mul_comm]
    exact mul_le_mul_of_nonneg_right (by exact_mod_cast hLt) (by positivity)

/-- A decimal that rounds to a double has not many more digits than the search makes steps. -/
theorem lt_of_rounds (h : Normal m q) {n : ℕ} {e k : ℤ} (hRounds : Rounds m q (n * 10 ^ e))
    (hAbove : (2 * (4 * m * 2 ^ (q - 2)) : ℚ) ≤ 10 ^ (k + 380)) (he : k - (18 : ℕ) < e) :
    n < 10 ^ 400 := by
  have hTwice : ((4 * m + 2) * 2 ^ (q - 2) : ℚ) ≤ 2 * (4 * m * 2 ^ (q - 2)) := by
    have hOne : (1 : ℚ) ≤ m := Nat.one_le_cast.mpr h.pos
    rw [← mul_assoc]
    exact mul_le_mul_of_nonneg_right (by linarith) (by positivity)
  have hPower : (n * 10 ^ e : ℚ) ≤ 10 ^ (397 : ℤ) * 10 ^ e := by
    calc (n * 10 ^ e : ℚ) ≤ 10 ^ (k + 380) := (hRounds.le_high.trans hTwice).trans hAbove
      _ ≤ 10 ^ (397 + e) := zpow_le_zpow_right₀ (by norm_num) (by omega)
      _ = 10 ^ (397 : ℤ) * 10 ^ e := zpow_add₀ (by norm_num) ..
  have hBound : (n : ℚ) < 10 ^ ((400 : ℕ) : ℤ) :=
    (le_of_mul_le_mul_right hPower (by positivity)).trans_lt
      (zpow_lt_zpow_right₀ (by norm_num) (by decide))
  rw [zpow_natCast] at hBound
  exact_mod_cast hBound

/-- The shortest digits of a double are those of a decimal that rounds to it. -/
theorem exists_digits (tie : Tie) (h : Normal m q) :
    ∃ n e, digits tie m q = Digits.of n e ∧ 0 < n ∧ n < 10 ^ 400 ∧ Rounds m q (n * 10 ^ e) := by
  have hPos := h.pos
  have hNum : 0 < (Interval.of m q).value := Nat.mul_pos (by omega) (Nat.pow_pos (by decide))
  obtain ⟨hLow, hHigh⟩ := value_bounds h
  have hGreatest := h.le_greatest
  rw [← value_div_den] at hLow hHigh
  obtain ⟨hBelow, hAbove⟩ :=
    magnitude_spec hNum (den_pos m q) h.least_le (by omega) hLow hHigh
  rw [value_div_den] at hBelow hAbove
  have hDigits : digits tie m q = Digits.of
      (search tie (Interval.of m q) 18
        (magnitude (Interval.of m q).value (Interval.of m q).den)).1
      (search tie (Interval.of m q) 18
        (magnitude (Interval.of m q).value (Interval.of m q).den)).2 := rfl
  generalize magnitude (Interval.of m q).value (Interval.of m q).den = k at *
  -- the last grid that is tried is fine enough
  have hLast : (10 : ℚ) ^ 17 * 10 ^ (k - (17 : ℕ)) ≤ 4 * m * 2 ^ (q - 2) := by
    rwa [← zpow_natCast, ← zpow_add₀ (by norm_num), Nat.cast_ofNat, add_sub_cancel]
  obtain ⟨n, e, hSearch, hFirst, hn, hHit⟩ :=
    search_spec 18 ⟨17, by decide, isSome_onGrid?_of_fine tie h hLast⟩
  rw [contains_iff hPos q _ (den_grid_pos ..), value_grid] at hHit
  exact ⟨n, e, by rw [hDigits, hSearch], hn, lt_of_rounds h hHit hAbove hFirst, hHit⟩

end Digits

/-! ## The number that digits write -/

namespace Digits

/-- The number itself. -/
def value (d : Digits) : ℚ :=
  (Nat.ofDigits 10 d.digits.reverse : ℕ) * 10 ^ (d.point - d.digits.length)

theorem digitsBackwards_eq {fuel n : ℕ} (h : n < 10 ^ fuel) :
    digitsBackwards fuel n = Nat.digits 10 n := by
  induction fuel generalizing n with
  | zero =>
    obtain rfl := Nat.lt_one_iff.mp h
    rfl
  | succ fuel ih =>
    rw [digitsBackwards]
    split_ifs with hn
    · rw [hn, Nat.digits_zero]
    · have hRest : n / 10 < 10 ^ fuel := Nat.div_lt_of_lt_mul (by rwa [← Nat.pow_succ'])
      rw [ih hRest, ← Nat.digits_def' (by decide) (Nat.pos_of_ne_zero hn)]

/-- Zeros in front of digits, the lowest first, shift the number that they write. -/
theorem exists_zeros (digits : List ℕ) : ∃ zeros,
    digits.length = zeros + (digits.dropWhile (· = 0)).length ∧
      Nat.ofDigits 10 digits = 10 ^ zeros * Nat.ofDigits 10 (digits.dropWhile (· = 0)) := by
  induction digits with
  | nil => exact ⟨0, rfl, rfl⟩
  | cons d digits ih =>
    rcases Nat.eq_zero_or_pos d with rfl | hd
    · obtain ⟨zeros, hLength, hNumber⟩ := ih
      refine ⟨zeros + 1, ?_, ?_⟩
      · rw [List.length_cons, hLength, List.dropWhile_cons_of_pos rfl, Nat.add_right_comm]
      · rw [Nat.ofDigits_cons, hNumber, List.dropWhile_cons_of_pos rfl, zero_add, Nat.pow_succ',
          mul_assoc]
    · rw [List.dropWhile_cons_of_neg (by simpa using hd.ne')]
      exact ⟨0, (Nat.zero_add _).symm, (Nat.one_mul _).symm⟩

variable {n : ℕ} {e : ℤ}

/-- The digits write the number that they are chosen for. -/
theorem value_of (h : n < 10 ^ 400) : (of n e).value = n * 10 ^ e := by
  obtain ⟨zeros, hLength, hNumber⟩ := exists_zeros (Nat.digits 10 n)
  rw [Nat.ofDigits_digits] at hNumber
  simp only [value, of, digitsBackwards_eq h, List.reverse_reverse, List.length_reverse]
  generalize (Nat.digits 10 n).dropWhile (· = 0) = kept at *
  rw [hLength, hNumber, Nat.cast_add, add_right_comm, add_sub_cancel_right,
    zpow_add₀ (by norm_num), zpow_natCast]
  push_cast
  ring

theorem lt_ten_of_mem (h : n < 10 ^ 400) {d : ℕ} (hd : d ∈ (of n e).digits) : d < 10 := by
  simp only [of, digitsBackwards_eq h, List.mem_reverse] at hd
  exact Nat.digits_lt_base (by decide) ((List.dropWhile_suffix _).subset hd)

end Digits

end Formula.Shortest
