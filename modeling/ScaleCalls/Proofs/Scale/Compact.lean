import Mathlib.Data.Nat.Digits.Lemmas
import ScaleCalls.Proofs.Scale.LittleEndian

/-!
# Compact integers

A compact integer below `2 ^ 30` is four times its value, and its mode, in one, two or
four bytes. Any other is the list of its digits to the base 256 behind a byte that
says how many there are. The mode can be read off the first byte, so a reader knows
where the integer ends.

## Main definitions

- `Scale.compactOf` — the bytes of a compact integer
- `Scale.readCompact` — the integer at the front of some bytes, and what follows it

## Main statements

- `Scale.compact_eq_compactOf` — the encoder writes these bytes
- `Scale.readCompact_compact_append` — the reader gives back integer and tail
-/

namespace ScaleCalls.Scale

/-- The bytes of a compact integer. -/
def compactOf (n : Nat) : Bytes :=
  if n < 2 ^ 6 then bytesOf 1 (4 * n)
  else if n < 2 ^ 14 then bytesOf 2 (4 * n + 1)
  else if n < 2 ^ 30 then bytesOf 4 (4 * n + 2)
  else
    UInt8.ofNat (4 * ((Nat.digits 256 n).length - 4) + 3) :: (Nat.digits 256 n).map UInt8.ofNat

/-- The first `len` bytes as a number, and what follows them. -/
def readFixed (len : Nat) (input : Bytes) : Option (Nat × Bytes) :=
  if len ≤ input.length then some (valueOf (input.take len), input.drop len) else none

/-- The compact integer at the front of some bytes, and what follows it. -/
def readCompact (input : Bytes) : Option (Nat × Bytes) :=
  match input with
  | [] => none
  | header :: rest =>
    let mode := header.toNat % 4
    if mode < 3 then (readFixed (2 ^ mode) (header :: rest)).map fun r => (r.1 / 4, r.2)
    else readFixed (header.toNat / 4 + 4) rest

theorem significantBytes_eq (n : Nat) : significantBytes n = (Nat.digits 256 n).length := by
  by_cases hn : n = 0
  · simp [significantBytes, hn]
  · rw [significantBytes, if_neg hn, Nat.length_digits 256 n (by decide) hn,
      Nat.log2_eq_log_two, show (256 : Nat) = 2 ^ 8 by rfl, Nat.log_pow_left]

theorem littleEndian_digits (n : Nat) :
    littleEndian (Nat.digits 256 n).length n = (Nat.digits 256 n).map UInt8.ofNat := by
  induction n using Nat.strongRecOn with
  | ind n ih =>
    by_cases hn : n = 0
    · simp [hn, littleEndian]
    · rw [Nat.digits_def' (by decide) (by omega), List.length_cons, littleEndian,
        ih (n / 256) (by omega), List.map_cons, ofNat_mod]

theorem compact_eq_ite (n : Nat) :
    compact n = if n < 2 ^ 6 then littleEndian 1 (4 * n)
      else if n < 2 ^ 14 then littleEndian 2 (4 * n + 1)
      else if n < 2 ^ 30 then littleEndian 4 (4 * n + 2)
      else UInt8.ofNat (4 * (max 4 (significantBytes n) - 4) + 3) ::
        littleEndian (max 4 (significantBytes n)) n := rfl

/-- A number from `2 ^ 30` on has at least four bytes. -/
theorem four_le_length_digits {n : Nat} (h : 2 ^ 30 ≤ n) : 4 ≤ (Nat.digits 256 n).length := by
  by_contra hlt
  have : n < 256 ^ (Nat.digits 256 n).length := Nat.lt_base_pow_length_digits (by decide)
  have : 256 ^ (Nat.digits 256 n).length ≤ 256 ^ 3 :=
    Nat.pow_le_pow_right (by decide) (by omega)
  omega

theorem compact_of_le {n : Nat} (h : 2 ^ 30 ≤ n) :
    compact n = UInt8.ofNat (4 * ((Nat.digits 256 n).length - 4) + 3) ::
      littleEndian (Nat.digits 256 n).length n := by
  have hlen := four_le_length_digits h
  rw [compact_eq_ite, if_neg (by omega), if_neg (by omega), if_neg (by omega),
    significantBytes_eq, Nat.max_eq_right hlen]

theorem compact_eq_compactOf (n : Nat) : compact n = compactOf n := by
  by_cases h : n < 2 ^ 30
  · rw [compact_eq_ite, compactOf]
    simp only [littleEndian_eq_bytesOf, if_pos h]
    push_cast
    rfl
  · rw [compact_of_le (by omega), littleEndian_digits, compactOf, if_neg (by omega),
      if_neg (by omega), if_neg h]

theorem readFixed_littleEndian_append (width n : Nat) (tail : Bytes) :
    readFixed width (littleEndian width n ++ tail) = some (n % 256 ^ width, tail) := by
  have hlength := length_littleEndian width n
  rw [readFixed, if_pos (by simp), ← valueOf_littleEndian]
  simp [List.take_left' hlength, List.drop_left' hlength]

theorem readCompact_short (mode : Nat) {n : Nat} (hmode : mode < 3)
    (hn : 4 * n + mode < 256 ^ 2 ^ mode) (tail : Bytes) :
    readCompact (littleEndian (2 ^ mode) (4 * n + mode) ++ tail) = some (n, tail) := by
  obtain ⟨width, hwidth⟩ := Nat.exists_eq_succ_of_ne_zero (Nat.ne_of_gt (Nat.two_pow_pos mode))
  have hheader : (UInt8.ofNat (4 * n + mode)).toNat % 4 = mode := by
    simp only [UInt8.toNat_ofNat']
    omega
  have hread := readFixed_littleEndian_append (2 ^ mode) (4 * n + mode) tail
  rw [Nat.mod_eq_of_lt hn] at hread
  rw [hwidth, littleEndian, List.cons_append] at hread ⊢
  rw [readCompact]
  simp only [hheader, if_pos hmode, hwidth, hread, Option.map_some]
  congr 2
  omega

theorem readCompact_long {len n : Nat} (hleast : 4 ≤ len) (hmost : len < 68) (hn : n < 256 ^ len)
    (tail : Bytes) :
    readCompact (UInt8.ofNat (4 * (len - 4) + 3) :: (littleEndian len n ++ tail)) =
      some (n, tail) := by
  have hheader : (UInt8.ofNat (4 * (len - 4) + 3)).toNat = 4 * (len - 4) + 3 := by
    simp only [UInt8.toNat_ofNat']
    omega
  rw [readCompact]
  simp only [hheader]
  rw [if_neg (by omega), show (4 * (len - 4) + 3) / 4 + 4 = len by omega,
    readFixed_littleEndian_append, Nat.mod_eq_of_lt hn]

/-- Reading a compact integer gives it back, and leaves exactly what follows it. -/
theorem readCompact_compact_append {n : Nat} (hn : n < 256 ^ 67) (tail : Bytes) :
    readCompact (compact n ++ tail) = some (n, tail) := by
  by_cases hlong : 2 ^ 30 ≤ n
  · -- the header counts the bytes that follow; they are just those of the number
    have hmost : (Nat.digits 256 n).length ≤ 67 := by
      rw [Nat.digits_length_le_iff (by decide)]
      exact hn
    rw [compact_of_le hlong, List.cons_append]
    exact readCompact_long (four_le_length_digits hlong) (by omega)
      (Nat.lt_base_pow_length_digits (by decide)) tail
  · rw [compact_eq_ite]
    split
    · exact readCompact_short 0 (by decide) (by omega) tail
    · split
      · exact readCompact_short 1 (by decide) (by omega) tail
      · rw [if_pos (by omega)]
        exact readCompact_short 2 (by decide) (by omega) tail

theorem lt_bound_of_lt_width {width : CompactWidth} {n : Nat} (h : n < 2 ^ width.bits) :
    n < 256 ^ 67 := by
  have hwidth : 2 ^ width.bits ≤ 256 ^ 67 := by
    cases width <;> decide
  exact Nat.lt_of_lt_of_le h hwidth

/-- Where a compact integer ends can be told from its bytes. -/
theorem compact_append_inj {m n : Nat} (hm : m < 256 ^ 67) (hn : n < 256 ^ 67) {s t : Bytes}
    (h : compact m ++ s = compact n ++ t) : m = n ∧ s = t := by
  -- one text is read in both ways
  have := readCompact_compact_append hm s
  rw [h, readCompact_compact_append hn t] at this
  cases this
  exact ⟨rfl, rfl⟩

end ScaleCalls.Scale
