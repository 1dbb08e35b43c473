import Mathlib

/-!
# Letters

Facts about characters that say nothing about the program.
-/

namespace ScaleCalls.Text

theorem toNat_of_isAlpha {c : Char} (h : c.isAlpha) :
    65 ≤ c.toNat ∧ c.toNat ≤ 90 ∨ 97 ≤ c.toNat ∧ c.toNat ≤ 122 := by
  simpa [Char.isAlpha, Char.isUpper, Char.isLower, UInt32.le_iff_toNat_le] using h

theorem toNat_of_isDigit {c : Char} (h : c.isDigit) : 48 ≤ c.toNat ∧ c.toNat ≤ 57 := by
  simpa [Char.isDigit, UInt32.le_iff_toNat_le] using h

theorem not_isDigit_of_isAlpha {c : Char} (h : c.isAlpha) : ¬ c.isDigit := by
  intro hdigit
  have hletter := toNat_of_isAlpha h
  have hrange := toNat_of_isDigit hdigit
  omega

/-- In lower case a character is the same, or a letter for a letter. -/
theorem toLower_cases (c : Char) : c.toLower = c ∨ c.isAlpha ∧ c.toLower.isAlpha := by
  by_cases hc : c.isAlpha
  · exact .inr ⟨hc, by simpa using hc⟩
  · exact .inl (Char.toLower_eq_of_not_isUpper fun h => hc (by simp [Char.isAlpha, h]))

/-- In upper case a character is the same, or a letter for a letter. -/
theorem toUpper_cases (c : Char) : c.toUpper = c ∨ c.isAlpha ∧ c.toUpper.isAlpha := by
  by_cases hc : c.isAlpha
  · exact .inr ⟨hc, by simpa using hc⟩
  · exact .inl (Char.toUpper_eq_of_not_isLower fun h => hc (by simp [Char.isAlpha, h]))

/-- What is no letter comes from no other character. -/
theorem toLower_eq_iff {c d : Char} (hd : d.isAlpha = false) : c.toLower = d ↔ c = d := by
  constructor
  · rintro rfl
    obtain hsame | ⟨-, hletter⟩ := toLower_cases c
    · exact hsame.symm
    · rw [hd] at hletter
      cases hletter
  · rintro rfl
    obtain hsame | ⟨hletter, -⟩ := toLower_cases c
    · exact hsame
    · rw [hd] at hletter
      cases hletter

end ScaleCalls.Text
