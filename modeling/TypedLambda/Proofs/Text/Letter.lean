import TypedLambda.Grammar.Lexeme

/-!
# Character classes

How the classes of characters lie to each other: digits are characters of names but start no word,
and characters of names are different from the blanks and the characters of gaps.

## Main results

* `Text.isNameChar_of_isDigit`, `Text.isWordStart_of_isDigit`: digits
* `Text.isBlank_of_isNameChar`, `Text.isGap_of_isNameChar`: characters of names are no blanks
* `Text.isBlank_of_isGap`: gaps are made of blanks
-/

namespace TypedLambda

namespace Text

variable {c : Char}

/-! ## Codes -/

theorem toNat_of_isDigit (h : c.isDigit = true) : 48 ≤ c.toNat ∧ c.toNat ≤ 57 :=
  Char.isDigit_iff_toNat.mp h

theorem toNat_of_isUpper (h : c.isUpper = true) : 65 ≤ c.toNat ∧ c.toNat ≤ 90 := by
  obtain ⟨hlow, hhigh⟩ := of_decide_eq_true h
  exact ⟨UInt32.le_iff_toNat_le.mp hlow, UInt32.le_iff_toNat_le.mp hhigh⟩

theorem toNat_of_isLower (h : c.isLower = true) : 97 ≤ c.toNat ∧ c.toNat ≤ 122 := by
  obtain ⟨hlow, hhigh⟩ := Bool.and_eq_true_iff.mp h
  exact ⟨UInt32.le_iff_toNat_le.mp (of_decide_eq_true hlow),
    UInt32.le_iff_toNat_le.mp (of_decide_eq_true hhigh)⟩

theorem toNat_of_isAlpha (h : c.isAlpha = true) : 65 ≤ c.toNat ∧ c.toNat ≤ 122 := by
  rcases Bool.or_eq_true_iff.mp h with h | h
  · have := toNat_of_isUpper h
    omega
  · have := toNat_of_isLower h
    omega

theorem toNat_of_isNameChar (h : isNameChar c = true) :
    c.toNat = 39 ∨ (48 ≤ c.toNat ∧ c.toNat ≤ 122) := by
  simp only [isNameChar, Char.isAlphanum, Bool.or_eq_true, decide_eq_true_eq] at h
  obtain ((h | h) | rfl) | rfl := h
  · have := toNat_of_isAlpha h
    omega
  · have := toNat_of_isDigit h
    omega
  · exact .inr (by decide)
  · exact .inl rfl

/-! ## Characters of names -/

theorem isNameChar_of_isDigit (h : c.isDigit = true) : isNameChar c = true := by
  simp [isNameChar, Char.isAlphanum, h]

theorem isNameChar_of_isAlpha (h : c.isAlpha = true) : isNameChar c = true := by
  simp [isNameChar, Char.isAlphanum, h]

theorem isNameChar_of_isUpper (h : c.isUpper = true) : isNameChar c = true :=
  isNameChar_of_isAlpha (Bool.or_eq_true_iff.mpr (.inl h))

theorem isNameChar_of_isNameStart (h : Grammar.isNameStart c = true) : isNameChar c = true := by
  rcases Bool.or_eq_true_iff.mp h with h | h
  · exact isNameChar_of_isAlpha (Bool.or_eq_true_iff.mpr (.inr h))
  · simp [isNameChar, of_decide_eq_true h]

theorem isNameChar_of_isWordStart (h : isWordStart c = true) : isNameChar c = true := by
  rcases Bool.or_eq_true_iff.mp h with h | h
  · exact isNameChar_of_isAlpha h
  · simp [isNameChar, of_decide_eq_true h]

theorem isWordStart_of_isNameStart (h : Grammar.isNameStart c = true) : isWordStart c = true := by
  rcases Bool.or_eq_true_iff.mp h with h | h
  · exact Bool.or_eq_true_iff.mpr (.inl (Bool.or_eq_true_iff.mpr (.inr h)))
  · exact Bool.or_eq_true_iff.mpr (.inr h)

theorem isWordStart_of_isUpper (h : c.isUpper = true) : isWordStart c = true :=
  Bool.or_eq_true_iff.mpr (.inl (Bool.or_eq_true_iff.mpr (.inl h)))

/-- No word starts with a digit. -/
theorem isWordStart_of_isDigit (h : c.isDigit = true) : isWordStart c = false := by
  have hcode := toNat_of_isDigit h
  rw [← Bool.not_eq_true]
  intro hword
  rcases Bool.or_eq_true_iff.mp hword with hword | hword
  · have := toNat_of_isAlpha hword
    omega
  · obtain rfl := of_decide_eq_true hword
    cases h

/-- What starts a name of a variable does not start a name of a type. -/
theorem isUpper_of_isNameStart (h : Grammar.isNameStart c = true) : c.isUpper = false := by
  rw [← Bool.not_eq_true]
  intro hupper
  have hcode := toNat_of_isUpper hupper
  rcases Bool.or_eq_true_iff.mp h with h | h
  · have := toNat_of_isLower h
    omega
  · obtain rfl := of_decide_eq_true h
    cases hupper

/-! ## Blanks -/

theorem isBlank_of_isGap (h : isGap c = true) : isBlank c = true := by
  simp only [isGap, Bool.or_eq_true, decide_eq_true_eq] at h
  obtain ((rfl | rfl) | rfl) | rfl := h <;> decide

/-- No character of names is a blank. -/
theorem isBlank_of_isNameChar (h : isNameChar c = true) : isBlank c = false := by
  have hcode := toNat_of_isNameChar h
  simp only [isBlank, inRanges, blankRanges, List.any_eq_false]
  intro r hr
  simp only [List.mem_cons, List.not_mem_nil, or_false] at hr
  simp only [Bool.and_eq_true, decide_eq_true_eq]
  rcases hr with rfl | rfl | rfl | rfl | rfl | rfl | rfl | rfl | rfl | rfl <;> omega

theorem isGap_of_isNameChar (h : isNameChar c = true) : isGap c = false := by
  rw [← Bool.not_eq_true]
  intro hgap
  have hblank := isBlank_of_isGap hgap
  rw [isBlank_of_isNameChar h] at hblank
  cases hblank

/-! ## Characters that may be missing -/

/-- A larger class has the character, too. -/
theorem any_of_any {p q : Char → Bool} (hpq : ∀ c, p c = true → q c = true) {o : Option Char}
    (h : o.any p = true) : o.any q = true := by
  cases o with
  | none => cases h
  | some c => exact hpq c h

/-- A smaller class does not have the character either. -/
theorem not_any_of_not_any {p q : Char → Bool} (hpq : ∀ c, p c = true → q c = true)
    {o : Option Char} (h : o.any q = false) : o.any p = false := by
  rw [← Bool.not_eq_true] at h ⊢
  exact fun hp => h (any_of_any hpq hp)

end Text

end TypedLambda
