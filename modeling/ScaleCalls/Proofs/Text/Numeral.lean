import Mathlib.Data.List.Basic
import ScaleCalls.Text.Blank
import ScaleCalls.Text.Numeral

/-!
# Decimal digits

A number is written with decimal digits, at least one, and read back from them. What is
read from more digits is no smaller, and none of them is a blank.

## Main statements

- `Text.digits?_toDigits`, `Text.numeral?_toDigits` — a number is read back from its decimal
  digits
- `Text.le_digitsValue_append` — digits behind a numeral do not make it smaller
-/

namespace ScaleCalls.Text

theorem ne_of_isDigit {c d : Char} (hc : c.isDigit) (hd : d.isDigit = false) : c ≠ d := by
  rintro rfl
  rw [hc] at hd
  cases hd

theorem isDigit_of_mem_toDigits {c : Char} {n : Nat} (h : c ∈ Nat.toDigits 10 n) : c.isDigit :=
  Nat.isDigit_of_mem_toDigits (by decide) (by decide) h

theorem exists_toDigits_eq_cons (n : Nat) :
    ∃ c cs, Nat.toDigits 10 n = c :: cs ∧ c.isDigit := by
  obtain ⟨c, cs, hdigits⟩ := List.exists_cons_of_ne_nil (Nat.toDigits_ne_nil (n := n) (b := 10))
  exact ⟨c, cs, hdigits, isDigit_of_mem_toDigits (hdigits ▸ List.mem_cons_self)⟩

theorem digitsValue_eq (cs : List Char) : digitsValue cs = Nat.ofDigitChars 10 cs 0 := by
  rw [digitsValue, Nat.ofDigitChars_eq_foldl]
  rfl

theorem digitsValue_toDigits (n : Nat) : digitsValue (Nat.toDigits 10 n) = n := by
  rw [digitsValue_eq, Nat.ofDigitChars_ten_toDigits]

theorem digits?_toDigits {limit n : Nat} (h : n < limit) :
    digits? limit (Nat.toDigits 10 n) = some n := by
  have hdigits : (Nat.toDigits 10 n).all Char.isDigit := by
    rw [List.all_eq_true]
    exact fun c hc => isDigit_of_mem_toDigits hc
  have hnil : (Nat.toDigits 10 n).isEmpty = false := by
    rw [List.isEmpty_eq_false_iff]
    exact Nat.toDigits_ne_nil
  rw [digits?, hnil, hdigits, digitsValue_toDigits]
  simp [h]

theorem not_isBlank_of_isDigit {c : Char} (h : c.isDigit) : isBlank c = false := by
  have hrange : 48 ≤ c.toNat ∧ c.toNat ≤ 57 := by
    simpa [Char.isDigit, UInt32.le_iff_toNat_le] using h
  exact not_isBlank_of_range (by omega) (by omega)

theorem toList_stripBlanks_append (front back : String) :
    (stripBlanks (front ++ back)).toList =
      (stripBlanks front).toList ++ (stripBlanks back).toList := by
  simp only [toList_stripBlanks, String.toList_append, List.filter_append]

theorem toList_stripBlanks_toString (n : Nat) :
    (stripBlanks (toString n)).toList = Nat.toDigits 10 n := by
  rw [toList_stripBlanks, Nat.toString_eq_repr, Nat.toList_repr, List.filter_eq_self]
  intro c hc
  rw [not_isBlank_of_isDigit (isDigit_of_mem_toDigits hc)]
  rfl

theorem le_foldl_digits (n : Nat) (cs : List Char) :
    n ≤ cs.foldl (fun n c => 10 * n + digitValue c) n := by
  induction cs generalizing n with
  | nil => exact Nat.le_refl n
  | cons c cs ih =>
    refine Nat.le_trans ?_ (ih (10 * n + digitValue c))
    omega

theorem le_digitsValue_append (front back : List Char) :
    digitsValue front ≤ digitsValue (front ++ back) := by
  rw [digitsValue, digitsValue, List.foldl_append]
  exact le_foldl_digits _ back

/-- A numeral starts with numerals. -/
theorem digits?_ne_none_of_append {limit n : Nat} {front back : List Char} (hfront : front ≠ [])
    (h : digits? limit (front ++ back) = some n) : digits? limit front ≠ none := by
  unfold digits? at h
  split at h
  · cases h
  · rename_i hdigits
    split at h
    · rename_i hlimit
      have hall : front.all Char.isDigit := by
        rw [Bool.or_eq_true, not_or, Bool.not_eq_true', Bool.not_eq_false, List.all_append,
          Bool.and_eq_true] at hdigits
        exact hdigits.2.1
      have hle := le_digitsValue_append front back
      rw [digits?, List.isEmpty_eq_false_iff.2 hfront, hall,
        if_neg (by decide), if_pos (Nat.lt_of_le_of_lt hle hlimit)]
      exact Option.some_ne_none _
    · cases h

theorem all_isDigit_of_digits? {limit n : Nat} {cs : List Char} (h : digits? limit cs = some n) :
    ∀ c ∈ cs, c.isDigit := by
  unfold digits? at h
  split at h
  · cases h
  · rename_i hdigits
    rw [Bool.or_eq_true, not_or, Bool.not_eq_true', Bool.not_eq_false] at hdigits
    exact List.all_eq_true.1 hdigits.2

theorem numeral?_of_forall_isDigit {limit : Nat} {cs : List Char} (h : ∀ c ∈ cs, c.isDigit) :
    numeral? limit cs = digits? limit cs := by
  unfold numeral?
  split
  · exact absurd (h '+' List.mem_cons_self) (by decide)
  · rfl

theorem numeral?_toDigits {limit n : Nat} (h : n < limit) :
    numeral? limit (Nat.toDigits 10 n) = some n := by
  rw [numeral?_of_forall_isDigit fun _ => isDigit_of_mem_toDigits, digits?_toDigits h]

/-- A numeral has nothing in it but digits and a sign. -/
theorem isDigit_or_plus_of_numeral? {limit n : Nat} {cs : List Char}
    (h : numeral? limit cs = some n) : ∀ c ∈ cs, c.isDigit ∨ c = '+' := by
  intro c hc
  unfold numeral? at h
  split at h
  · rcases List.mem_cons.1 hc with rfl | hc
    · exact .inr rfl
    · exact .inl (all_isDigit_of_digits? h c hc)
  · exact .inl (all_isDigit_of_digits? h c hc)

theorem not_mem_of_numeral? {limit n : Nat} {cs : List Char} {d : Char}
    (h : numeral? limit cs = some n) (hd : (d.isDigit || d == '+') = false) : d ∉ cs := by
  intro hmem
  rcases isDigit_or_plus_of_numeral? h d hmem with hdigit | rfl
  · rw [hdigit] at hd
    cases hd
  · cases hd

end ScaleCalls.Text
