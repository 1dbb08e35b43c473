import Mathlib.Algebra.Group.Int.Defs
import ScaleCalls.Json.Printer
import ScaleCalls.Json.Reader
import ScaleCalls.Proofs.Text.Numeral

/-!
# Integers are read back

An integer is written with the decimal digits of its absolute value, the first of which is
a zero for zero only. The digits are read up to the character behind them, and they denote
the same integer if it has at most 64 bits.

## Main definitions

- `Json.Ends` — what may stand behind a value
- `Json.numeral` — the numeral of an integer

## Main statements

- `Json.readScalar?_integer` — an integer is read as its numeral
- `Json.value?_numeral` — the numeral of an integer denotes it
-/

namespace ScaleCalls.Json

variable {rest : List Char} {n : Nat}

/-- What stands behind a value in a pretty text: nothing, a comma or a new line. -/
inductive Ends : List Char → Prop
  | nothing : Ends []
  | comma (cs : List Char) : Ends (',' :: cs)
  | newLine (cs : List Char) : Ends ('\n' :: cs)

/-- The decimal digits of the absolute value, with the sign of the integer. -/
def numeral (i : Int) : Numeral where
  negative := i < 0
  whole := Nat.toDigits 10 i.natAbs

/-- Only zero is written with a zero at the start. -/
theorem eq_zero_of_toDigits {cs : List Char} (h : Nat.toDigits 10 n = '0' :: cs) : n = 0 := by
  induction n using Nat.strongRecOn generalizing cs with
  | ind n ih =>
    by_cases hsmall : n < 10
    · have hchar : ∀ k < 10, k.digitChar = '0' → k = 0 := by decide
      rw [Nat.toDigits_of_lt_base hsmall] at h
      exact hchar n hsmall (List.cons.inj h).1
    · rw [Nat.toDigits_of_base_le (by decide) (Nat.le_of_not_lt hsmall)] at h
      obtain ⟨c, front, hfront, -⟩ := Text.exists_toDigits_eq_cons (n / 10)
      rw [hfront, List.cons_append] at h
      rw [(List.cons.inj h).1] at hfront
      have := ih (n / 10) (by omega) hfront
      omega

theorem text_integer (i : Int) : (Number.integer i).text =
    (if i < 0 then ['-'] else []) ++ Nat.toDigits 10 i.natAbs := by
  rw [Number.text, Int.toString_eq_repr, Int.repr_eq_if]
  by_cases hneg : i < 0
  · rw [if_neg (Int.not_le.2 hneg), if_pos hneg, String.toList_append, Nat.toList_repr,
      show (-i).toNat = i.natAbs by omega]
    rfl
  · rw [if_pos (Int.not_lt.1 hneg), if_neg hneg, Nat.toList_repr,
      show i.toNat = i.natAbs by omega, List.nil_append]

theorem spanDigits_toDigits (hrest : Ends rest) :
    spanDigits (Nat.toDigits 10 n ++ rest) = (Nat.toDigits 10 n, rest) := by
  rw [spanDigits, List.takeWhile_append_of_pos fun _ => Text.isDigit_of_mem_toDigits,
    List.dropWhile_append_of_pos fun _ => Text.isDigit_of_mem_toDigits]
  cases hrest with
  | nothing => rw [List.takeWhile_nil, List.dropWhile_nil, List.append_nil]
  | comma cs =>
    rw [List.takeWhile_cons_of_neg (by decide), List.dropWhile_cons_of_neg (by decide),
      List.append_nil]
  | newLine cs =>
    rw [List.takeWhile_cons_of_neg (by decide), List.dropWhile_cons_of_neg (by decide),
      List.append_nil]

theorem readWhole?_toDigits (hrest : Ends rest) :
    readWhole? (Nat.toDigits 10 n ++ rest) = some (Nat.toDigits 10 n, rest) := by
  rw [readWhole?, spanDigits_toDigits hrest]
  split
  · rename_i hdigits
    exact absurd (Prod.mk.inj hdigits).1 Nat.toDigits_ne_nil
  · rename_i hdigits
    obtain ⟨hzero, rfl⟩ := Prod.mk.inj hdigits
    rw [hzero]
  · rename_i hnot hdigits
    obtain ⟨hdigits, -⟩ := Prod.mk.inj hdigits
    obtain rfl := eq_zero_of_toDigits hdigits
    exact absurd (List.cons.inj hdigits).2.symm hnot
  · rename_i hdigits
    obtain ⟨rfl, rfl⟩ := Prod.mk.inj hdigits
    rfl

theorem readUnsigned?_toDigits (negative : Bool) (hrest : Ends rest) :
    readUnsigned? negative (Nat.toDigits 10 n ++ rest) =
      some (.number ⟨negative, Nat.toDigits 10 n, [], none⟩, rest) := by
  rw [readUnsigned?, readWhole?_toDigits hrest]
  cases hrest <;> rfl

/-- An integer is read as its numeral. -/
theorem readScalar?_integer (i : Int) (hrest : Ends rest) :
    readScalar? ((Number.integer i).text ++ rest) = some (.number (numeral i), rest) := by
  rw [text_integer, numeral]
  by_cases hneg : i < 0
  · rw [if_pos hneg, List.append_assoc, List.singleton_append, readScalar?,
      readUnsigned?_toDigits true hrest, decide_eq_true hneg]
  · rw [if_neg hneg, List.nil_append, decide_eq_false hneg,
      ← readUnsigned?_toDigits false hrest]
    obtain ⟨c, cs, hdigits, hc⟩ := Text.exists_toDigits_eq_cons i.natAbs
    have hne : ∀ {d : Char}, d.isDigit = false → c ≠ d := Text.ne_of_isDigit hc
    rw [hdigits, List.cons_append, readScalar?.eq_6]
    · exact fun _ h => hne (by decide) (List.cons.inj h).1
    · exact fun _ h => hne (by decide) (List.cons.inj h).1
    · exact fun _ h => hne (by decide) (List.cons.inj h).1
    · exact fun _ h => hne (by decide) (List.cons.inj h).1
    · exact fun _ h => hne (by decide) (List.cons.inj h).1

theorem collect_digits {significand : Nat} (cs : List Char)
    (h : cs.foldl (fun n c => 10 * n + Text.digitValue c) significand < Text.limit64) :
    Numeral.collect significand cs =
      (cs.foldl (fun n c => 10 * n + Text.digitValue c) significand, []) := by
  induction cs generalizing significand with
  | nil => rfl
  | cons c cs ih =>
    rw [List.foldl_cons] at h ⊢
    rw [Numeral.collect, if_pos (Nat.lt_of_le_of_lt (Text.le_foldl_digits _ cs) h), ih h]

theorem value?_numeral {i : Int} (hlow : -(2 ^ 63) ≤ i) (hhigh : i < 2 ^ 64) :
    (numeral i).value? = some (.integer i) := by
  have hvalue := Text.digitsValue_toDigits i.natAbs
  rw [Text.digitsValue] at hvalue
  have hcollect : Numeral.collect 0 (Nat.toDigits 10 i.natAbs) = (i.natAbs, []) := by
    have hlimit : i.natAbs < 2 ^ 64 := by omega
    rw [collect_digits _ (hvalue.symm ▸ hlimit), hvalue]
  rw [Numeral.value?, numeral, hcollect]
  by_cases hneg : i < 0
  · have hrange : 0 < i.natAbs ∧ i.natAbs ≤ Nat.pow 2 63 := by
      rw [Nat.pow_eq]
      omega
    have hvalue : -(i.natAbs : Int) = i := by omega
    simp only [decide_eq_true hneg, List.isEmpty_nil, Option.isNone_none, Bool.and_self,
      Bool.not_true, if_pos hrange, hvalue]
    rfl
  · have hvalue : (i.natAbs : Int) = i := by omega
    simp only [decide_eq_false hneg, List.isEmpty_nil, Option.isNone_none, Bool.and_self,
      Bool.not_false, hvalue]
    rfl

end ScaleCalls.Json
