import Mathlib.Data.Nat.Digits.Defs
import ScaleCalls.Proofs.Scale.Compact

/-!
# The shortest compact integers

The reader accepts a number in several forms: in each of the three short modes that have
room for it, and with any count of bytes that has room for it, high zeros included. The
encoder writes the shortest one, which is the only one of its length.

## Main definitions

- `Scale.Codes` — the forms in which the reader accepts a number

## Main statements

- `Scale.readCompact_eq_some_iff` — the reader accepts these forms and no others
- `Scale.compact_canonical` — the encoder writes the shortest one
-/

namespace ScaleCalls.Scale

/-- The forms of a number that a reader of compact integers accepts. -/
inductive Codes (n : Nat) : Bytes → Prop
  | short {mode : Nat} (hmode : mode < 3) (hroom : 4 * n + mode < 256 ^ 2 ^ mode) :
      Codes n (littleEndian (2 ^ mode) (4 * n + mode))
  | long {len : Nat} (hleast : 4 ≤ len) (hmost : len < 68) (hroom : n < 256 ^ len) :
      Codes n (UInt8.ofNat (4 * (len - 4) + 3) :: littleEndian len n)

theorem readFixed_eq_some_iff {len n : Nat} {input rest : Bytes} :
    readFixed len input = some (n, rest) ↔
      n < 256 ^ len ∧ input = littleEndian len n ++ rest := by
  constructor
  · intro h
    rw [readFixed] at h
    split at h
    case isFalse => cases h
    case isTrue hlen =>
      obtain ⟨rfl, rfl⟩ := Prod.mk.inj (Option.some.inj h)
      have htake : (input.take len).length = len := List.length_take_of_le hlen
      have hvalue := valueOf_lt (input.take len)
      have hbytes := littleEndian_valueOf (input.take len)
      rw [htake] at hvalue hbytes
      exact ⟨hvalue, by rw [hbytes, List.take_append_drop]⟩
  · rintro ⟨hroom, rfl⟩
    rw [readFixed_littleEndian_append, Nat.mod_eq_of_lt hroom]

/-- What the reader accepts is a form of the number, and what it leaves is the rest. -/
theorem readCompact_eq_some_iff {n : Nat} {input rest : Bytes} :
    readCompact input = some (n, rest) ↔ ∃ code, Codes n code ∧ input = code ++ rest := by
  constructor
  · intro h
    cases input with
    | nil => cases h
    | cons header input =>
      rw [readCompact] at h
      split at h
      case isTrue hmode =>
        obtain ⟨⟨m, rest⟩, hread, hm⟩ := Option.map_eq_some_iff.1 h
        obtain ⟨rfl, rfl⟩ := Prod.mk.inj hm
        obtain ⟨hroom, hinput⟩ := readFixed_eq_some_iff.1 hread
        -- the header is the lowest byte, so it tells the mode of the number it begins
        have hlow : header.toNat % 4 = m % 4 := by
          obtain ⟨width, hwidth⟩ :=
            Nat.exists_eq_succ_of_ne_zero (Nat.ne_of_gt (Nat.two_pow_pos (header.toNat % 4)))
          rw [hwidth, littleEndian, List.cons_append] at hinput
          rw [(List.cons.inj hinput).1]
          simp only [UInt8.toNat_ofNat']
          omega
        have hwhole : 4 * (m / 4) + header.toNat % 4 = m := by omega
        refine ⟨_, .short hmode (by rwa [hwhole]), ?_⟩
        rwa [hwhole]
      case isFalse hmode =>
        obtain ⟨hroom, rfl⟩ := readFixed_eq_some_iff.1 h
        have hbyte := header.toNat_lt
        refine ⟨_, .long (by omega) (by omega) hroom, ?_⟩
        have hheader : UInt8.ofNat (4 * (header.toNat / 4 + 4 - 4) + 3) = header := by
          rw [show 4 * (header.toNat / 4 + 4 - 4) + 3 = header.toNat by omega]
          exact UInt8.ofNat_toNat
        rw [hheader, List.cons_append]
  · rintro ⟨code, hcode, rfl⟩
    cases hcode with
    | short hmode hroom => exact readCompact_short _ hmode hroom rest
    | long hleast hmost hroom => exact readCompact_long hleast hmost hroom rest

theorem length_compact (n : Nat) :
    (compact n).length = if n < 2 ^ 6 then 1 else if n < 2 ^ 14 then 2 else if n < 2 ^ 30 then 4
      else 1 + max 4 (Nat.digits 256 n).length := by
  rw [compact_eq_ite, significantBytes_eq]
  split_ifs <;> simp [Nat.add_comm]

/-- Every other form of a number is longer than the one that the encoder writes. -/
theorem Codes.eq_compact_or_longer {n : Nat} {code : Bytes} (h : Codes n code) :
    code = compact n ∨ (compact n).length < code.length := by
  cases h with
  | @short mode hmode hroom =>
    rw [length_compact, length_littleEndian, compact_eq_ite]
    obtain rfl | rfl | rfl : mode = 0 ∨ mode = 1 ∨ mode = 2 := by omega
    · left
      rw [if_pos (by omega)]
      rfl
    · by_cases h6 : n < 2 ^ 6
      · right
        rw [if_pos h6]
        decide
      · left
        rw [if_neg h6, if_pos (by omega)]
        rfl
    · by_cases h14 : n < 2 ^ 14
      · right
        split_ifs <;> simp
      · left
        rw [if_neg (by omega), if_neg h14, if_pos (by omega)]
        rfl
  | @long len hleast hmost hroom =>
    by_cases h30 : n < 2 ^ 30
    · right
      rw [length_compact, List.length_cons, length_littleEndian]
      split_ifs <;> omega
    · have hdigits : (Nat.digits 256 n).length ≤ len := by
        rwa [Nat.digits_length_le_iff (by decide)]
      rw [compact_of_le (by omega)]
      obtain heq | hlt := Nat.eq_or_lt_of_le hdigits
      · left
        rw [heq]
      · right
        simpa using hlt

/-- The last byte of a long compact integer is not zero: the number has no fewer bytes. -/
theorem compact_getLast? {n : Nat} (h30 : 2 ^ 30 ≤ n) :
    ∃ top, (compact n).getLast? = some top ∧ top ≠ 0 := by
  have hdigits : Nat.digits 256 n ≠ [] := Nat.digits_ne_nil_iff_ne_zero.2 (by omega)
  have hlast := Nat.getLast_digit_ne_zero 256 (m := n) (by omega)
  have hlt : (Nat.digits 256 n).getLast hdigits < 256 :=
    Nat.digits_lt_base (by decide) (List.getLast_mem hdigits)
  refine ⟨UInt8.ofNat ((Nat.digits 256 n).getLast hdigits), ?_, ?_⟩
  · rw [compact_of_le h30, littleEndian_digits, List.getLast?_cons, List.getLast?_map,
      List.getLast?_eq_some_getLast hdigits]
    rfl
  · rw [Ne, ← UInt8.toNat_inj, UInt8.toNat_ofNat_of_lt' hlt]
    exact hlast

/-- Reading what the encoder writes for a number gives the number back, and leaves exactly
what follows. It writes one, two or four bytes, or a header and the bytes that the number
has, of which there are at least four. Everything else that the reader takes for the same
number is longer. The bound is that of the format, whose header counts up to 67 bytes; a
number of 128 bits has 16. -/
theorem compact_canonical {n : Nat} (hn : n < 256 ^ 67) (tail : Bytes) :
    readCompact (compact n ++ tail) = some (n, tail) ∧
      ((compact n).length = 1 ↔ n < 2 ^ 6) ∧
      ((compact n).length = 2 ↔ 2 ^ 6 ≤ n ∧ n < 2 ^ 14) ∧
      ((compact n).length = 4 ↔ 2 ^ 14 ≤ n ∧ n < 2 ^ 30) ∧
      (2 ^ 30 ≤ n → (compact n).length = 1 + max 4 (Nat.digits 256 n).length ∧
        ∃ top, (compact n).getLast? = some top ∧ top ≠ 0) ∧
      ∀ code rest, readCompact (code ++ rest) = some (n, rest) →
        code = compact n ∨ (compact n).length < code.length := by
  refine ⟨readCompact_compact_append hn tail, ?_, ?_, ?_, fun h30 => ⟨?_, compact_getLast? h30⟩, ?_⟩
  · rw [length_compact]
    split_ifs <;> omega
  · rw [length_compact]
    split_ifs <;> omega
  · rw [length_compact]
    split_ifs <;> omega
  · rw [length_compact, if_neg (by omega), if_neg (by omega), if_neg (by omega)]
  · intro code rest hread
    obtain ⟨form, hform, happend⟩ := readCompact_eq_some_iff.1 hread
    rw [List.append_cancel_right happend]
    exact hform.eq_compact_or_longer

/-- A number of five bytes. The reader also accepts it with a zero byte on top. -/
theorem compact_canonical_fiveBytes :
    compact (2 ^ 32) = [7, 0, 0, 0, 0, 1] ∧ 2 ^ 32 < 256 ^ 67 ∧
      readCompact (compact (2 ^ 32) ++ [42]) = some (2 ^ 32, [42]) ∧
      readCompact ([11, 0, 0, 0, 0, 1, 0] ++ [42]) = some (2 ^ 32, [42]) ∧
      (compact (2 ^ 32)).length < [11, 0, 0, 0, 0, 1, 0].length := by
  have hbound : 2 ^ 32 < 256 ^ 67 := by decide
  have hbytes : compact (2 ^ 32) = [7, 0, 0, 0, 0, 1] := by decide +kernel
  have hpadded : readCompact ([11, 0, 0, 0, 0, 1, 0] ++ [42]) = some (2 ^ 32, [42]) := by
    decide +kernel
  obtain ⟨hread, -, -, -, -, hshortest⟩ := compact_canonical hbound [42]
  refine ⟨hbytes, hbound, hread, hpadded, ?_⟩
  obtain heq | hlt := hshortest _ _ hpadded
  · rw [hbytes] at heq
    cases heq
  · exact hlt

end ScaleCalls.Scale
