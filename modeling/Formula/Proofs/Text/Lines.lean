import Formula.Number.Layout
import Formula.Proofs.Splitting
import Formula.Text.Hex

/-!
# Lines

Numbers in all their forms are texts without line breaks (`Text.OneLine`). Such texts are told by
the text that they form as lines (`Text.lines_inj`).
-/

namespace Formula.Text

/-- Whether a text has no line break. -/
def OneLine (text : String) : Prop :=
  '\n' ∉ text.toList

instance (text : String) : Decidable (OneLine text) :=
  inferInstanceAs (Decidable ('\n' ∉ text.toList))

theorem oneLine_append {text more : String} (h : OneLine text) (hMore : OneLine more) :
    OneLine (text ++ more) := by
  rw [OneLine, String.toList_append, List.mem_append, not_or]
  exact ⟨h, hMore⟩

theorem oneLine_ofList {text : List Char} (h : '\n' ∉ text) : OneLine (String.ofList text) := by
  rwa [OneLine, String.toList_ofList]

theorem newline_not_mem_toDigits {base : Nat} (hBase : 1 < base) (hMax : base ≤ 16) (n : Nat) :
    '\n' ∉ Nat.toDigits base n := by
  have hDigits : ∀ d < 16, '\n' ≠ Nat.digitChar d := by decide
  induction n using Nat.strongRecOn with
  | ind n ih =>
    -- a single digit, or one behind those of a smaller number
    by_cases hLast : n < base
    · rw [Nat.toDigits_of_lt_base hLast, List.mem_singleton]
      exact hDigits n (by omega)
    · have hBefore := ih (n / base) (Nat.div_lt_self (by omega) hBase)
      have hDigit := Nat.mod_lt n (Nat.zero_lt_of_lt hBase)
      rw [Nat.toDigits_of_base_le hBase (Nat.le_of_not_lt hLast), List.mem_append,
        List.mem_singleton, not_or]
      exact ⟨hBefore, hDigits _ (by omega)⟩

theorem oneLine_toString (n : Nat) : OneLine (toString n) := by
  show '\n' ∉ n.repr.toList
  rw [Nat.toList_repr]
  exact newline_not_mem_toDigits (by decide) (by decide) n

theorem oneLine_padded (width n : Nat) : OneLine (Hex.padded width n) := by
  refine oneLine_ofList fun hMem => ?_
  rcases List.mem_append.mp hMem with hZero | hDigit
  · exact absurd (List.eq_of_mem_replicate hZero) (by decide)
  · exact newline_not_mem_toDigits (by decide) (by decide) n hDigit

theorem newline_not_mem_chars (digits : List Nat) : '\n' ∉ Layout.chars digits := by
  intro hMem
  obtain ⟨d, -, hChar⟩ := List.mem_map.mp hMem
  have hVal : (Char.ofNat (48 + d)).toNat = 10 := congrArg Char.toNat hChar
  rw [Char.toNat_ofNat] at hVal
  split_ifs at hVal
  omega

theorem newline_not_mem_positional (d : Shortest.Digits) : '\n' ∉ Layout.positional d [] := by
  have hZeros (n : Nat) : '\n' ∉ Layout.zeros n := fun hMem =>
    absurd (List.eq_of_mem_replicate hMem) (by decide)
  unfold Layout.positional
  split_ifs <;> simp [hZeros, newline_not_mem_chars]

theorem oneLine_plain (x : Float) : OneLine (plain x) := by
  have hSign : OneLine (if Magnitude.isNegative x then "-" else "") := by
    split_ifs <;> decide
  unfold plain Layout.write
  dsimp only
  split
  · decide
  · exact oneLine_append hSign (by decide)
  · exact oneLine_append hSign (by decide)
  · exact oneLine_append hSign (oneLine_ofList (newline_not_mem_positional _))

/-- Texts without line breaks are told by the text that they form as lines. -/
theorem lines_inj {lines lines' : List String} (hLines : ∀ line ∈ lines, OneLine line)
    (hLines' : ∀ line ∈ lines', OneLine line)
    (h : String.join (lines.map (· ++ "\n")) = String.join (lines'.map (· ++ "\n"))) :
    lines = lines' := by
  induction lines generalizing lines' with
  | nil =>
    cases lines' with
    | nil => rfl
    | cons line lines' => simp at h
  | cons line lines ih =>
    cases lines' with
    | nil => simp at h
    | cons line' lines' =>
      obtain ⟨hLine, hOthers⟩ := List.forall_mem_cons.mp hLines
      obtain ⟨hLine', hOthers'⟩ := List.forall_mem_cons.mp hLines'
      have hChars := congrArg String.toList h
      simp only [List.map_cons, String.join_cons, String.toList_append, List.append_assoc] at hChars
      obtain ⟨hSame, hMore⟩ := Token.front_cons_inj hLine hLine' hChars
      rw [String.toList_inj.mp hSame, ih hOthers hOthers' (String.toList_inj.mp hMore)]

end Formula.Text
