import Mathlib.Data.Nat.PSub
import ScaleCalls.Proofs.Scale.MachineWords
import ScaleCalls.Proofs.Solidity.Represents

/-!
# Integers of any width

A value holds an integer in a machine word of 128 bits, with a sign or without, and the
encoding may be narrower or wider. Narrow encodings check the range by shifts and
differences of machine words, wide ones have nothing to check. None of these operations
overflows, the check passes exactly for the integers that the width can represent, and the
bytes of such an integer give it back.

## Main definitions

- `Settles` — a result where a condition holds, a fault where it does not
- `OnWords.encodeUint?`, `OnWords.encodeInt?`, `OnWords.encodeCompact?` — the encoders, done
  with machine words

## Main statements

- `OnWords.encodeUint?_eq`, `OnWords.encodeInt?_eq`, `OnWords.encodeCompact?_eq` — there is
  no overflow, and the outcome is that of the encoders
- `SourceUnit.encode_integer` — which integers are encoded, and how they are read back
-/

namespace ScaleCalls.Solidity

namespace OnWords

open Machine

/-- An unsigned word leaves a width. -/
def leavesUint? (bits : Nat) (v : BitVec 128) : Option Bool :=
  if bits < 128 then do return decide ((← shiftRight? v bits) ≠ 0) else some false

/-- A signed word leaves a width. -/
def leavesInt? (bits : Nat) (v : BitVec 128) : Option Bool :=
  if bits < 128 then do
    let least ← negate? (← shiftLeft? 1 (← bits.ppred))
    let most ← signedMinus? (← shiftLeft? 1 (← bits.ppred)) 1
    return decide (v.slt least ∨ most.slt v)
  else some false

/-- The largest word that a compact integer of this width may hold. -/
def compactMax? : CompactWidth → Option (BitVec 128)
  | .u128 => some (BitVec.allOnes 128)
  | width => do minus? (← shiftLeft? 1 width.bits) 1

/-- An unsigned word is too large for a compact integer of a width. -/
def leavesCompact? (width : CompactWidth) (v : BitVec 128) : Option Bool := do
  return decide ((← compactMax? width).ult v)

/-- The bytes, unless a check says that the range is left. -/
def checked? (leaves? : Option Bool) (fault : EvalFault) (written : Bytes) :
    Option (Except EvalFault Bytes) := do
  if ← leaves? then return .error fault
  return .ok written

/-- An unsigned word in an encoding of this width. -/
def encodeUint? (bits : Nat) (v : BitVec 128) : Option (Except EvalFault Bytes) :=
  checked? (leavesUint? bits v) (.outOfRange (toString v.toNat) bits) (bytes v bits 0)

/-- A signed word in an encoding of this width. -/
def encodeInt? (bits : Nat) (v : BitVec 128) : Option (Except EvalFault Bytes) :=
  checked? (leavesInt? bits v) (.outOfRange (toString v.toInt) bits)
    (bytes v bits (if v.slt 0 then 255 else 0))

/-- An unsigned word as a compact integer of this width. -/
def encodeCompact? (width : CompactWidth) (v : BitVec 128) : Option (Except EvalFault Bytes) :=
  checked? (leavesCompact? width v) (.outOfRange (toString v.toNat) width.bits)
    (Scale.compact v.toNat)

theorem leavesUint?_eq (bits : Nat) (v : BitVec 128) :
    leavesUint? bits v = some (decide (bits < 128 ∧ 2 ^ bits ≤ v.toNat)) := by
  by_cases hbits : bits < 128
  · have hzero : v >>> bits = 0 ↔ v.toNat < 2 ^ bits := by
      rw [← BitVec.toNat_inj, BitVec.toNat_ushiftRight, Nat.shiftRight_eq_div_pow]
      exact Nat.div_eq_zero_iff_lt (Nat.two_pow_pos bits)
    rw [leavesUint?, if_pos hbits, shiftRight?, if_pos hbits]
    refine congrArg some (decide_eq_decide.2 ?_)
    rw [Ne, hzero]
    omega
  · simp [leavesUint?, hbits]

theorem leavesInt?_eq {bits : Nat} (hpos : 0 < bits) (v : BitVec 128) :
    leavesInt? bits v =
      some (decide (bits < 128 ∧ (v.toInt < -2 ^ (bits - 1) ∨ 2 ^ (bits - 1) ≤ v.toInt))) := by
  by_cases hbits : bits < 128
  · obtain ⟨n, rfl⟩ := Nat.exists_eq_succ_of_ne_zero (Nat.ne_of_gt hpos)
    obtain ⟨least, hleast, hleastValue⟩ := negate?_twoPow hbits
    obtain ⟨most, hmost, hmostValue⟩ := signedMinus?_twoPow hbits
    have hshift := shiftLeft?_one (show n < 128 by omega)
    rw [leavesInt?, if_pos hbits, Nat.ppred_succ]
    simp only [Option.bind_eq_bind, Option.bind_some, hshift, hleast, hmost]
    refine congrArg some (decide_eq_decide.2 ?_)
    rw [BitVec.slt_iff_toInt_lt, BitVec.slt_iff_toInt_lt, hleastValue, hmostValue,
      Nat.succ_sub_one]
    omega
  · simp [leavesInt?, hbits]

theorem compactMax?_eq (width : CompactWidth) :
    ∃ most, compactMax? width = some most ∧ most.toNat = Scale.compactMax width := by
  by_cases hwide : width = .u128
  · subst hwide
    exact ⟨_, rfl, rfl⟩
  · have hbits : width.bits < 128 := by
      cases width <;> first | decide | exact absurd rfl hwide
    obtain ⟨most, hmost, hvalue⟩ := minus?_twoPow hbits
    refine ⟨most, ?_, hvalue⟩
    rw [compactMax?, shiftLeft?_one hbits]
    · exact hmost
    · exact hwide

theorem leavesCompact?_eq (width : CompactWidth) (v : BitVec 128) :
    leavesCompact? width v = some (decide (Scale.compactMax width < v.toNat)) := by
  obtain ⟨most, hmost, hvalue⟩ := compactMax?_eq width
  rw [leavesCompact?, hmost, ← hvalue]
  exact congrArg some (decide_eq_decide.2 BitVec.ult_iff_toNat_lt)

theorem checked?_decide (p : Prop) [Decidable p] (fault : EvalFault) (written : Bytes) :
    checked? (some (decide p)) fault written = some (if p then .error fault else .ok written) := by
  by_cases hp : p
  · rw [if_pos hp, decide_eq_true hp]
    rfl
  · rw [if_neg hp, decide_eq_false hp]
    rfl

theorem encodeUint?_eq (bits : Nat) (v : BitVec 128) :
    encodeUint? bits v = some (encodeUint bits v.toNat) := by
  rw [encodeUint?, leavesUint?_eq, checked?_decide, bytes_unsigned]
  rfl

theorem encodeInt?_eq {bits : Nat} (hpos : 0 < bits) (v : BitVec 128) :
    encodeInt? bits v = some (encodeInt bits v.toInt) := by
  rw [encodeInt?, leavesInt?_eq hpos, checked?_decide, bytes_signed, encodeInt]
  simp only [hpos, true_and, fullWidth, Int.pow_eq]

theorem encodeCompact?_eq (width : CompactWidth) (v : BitVec 128) :
    encodeCompact? width v = some (encodeCompact width v.toNat) := by
  rw [encodeCompact?, leavesCompact?_eq, checked?_decide]
  rfl

end OnWords

/-- The outcome is a result as described where the condition holds, and the fault where it
does not. -/
def Settles {ε α : Type} (outcome : Except ε α) (fits : Prop) (fault : ε) (written : α → Prop) :
    Prop :=
  (fits → ∃ a, outcome = .ok a ∧ written a) ∧ (¬fits → outcome = .error fault)

theorem encodeUint_settles {bits : Nat} (hbytes : 8 ∣ bits) {n : Nat} (hn : n < 2 ^ 128) :
    Settles (encodeUint bits n) (n < 2 ^ bits) (.outOfRange (toString n) bits)
      fun b => b.length = bits / 8 ∧ Scale.valueOf b = n := by
  obtain ⟨width, rfl⟩ := hbytes
  constructor
  · intro hfits
    refine ⟨_, encodeUint_eq hfits, by simp [Scale.uint], ?_⟩
    rw [Nat.pow_mul] at hfits
    rw [Scale.uint, Nat.mul_div_cancel_left _ (by decide), Scale.valueOf_littleEndian]
    exact Nat.mod_eq_of_lt hfits
  · intro hleaves
    -- only a number that its word cannot hold would leave a width from 128 bits on
    have hnarrow : 8 * width < 128 := by
      by_contra hwide
      exact hleaves (Nat.lt_of_lt_of_le hn (Nat.pow_le_pow_right (by decide) (by omega)))
    rw [encodeUint, Nat.pow_eq, if_pos ⟨hnarrow, by omega⟩]

theorem encodeInt_settles {bits : Nat} (hpos : 0 < bits) (hbytes : 8 ∣ bits) {i : Int}
    (hi : -2 ^ 127 ≤ i ∧ i < 2 ^ 127) :
    Settles (encodeInt bits i) (-2 ^ (bits - 1) ≤ i ∧ i < 2 ^ (bits - 1))
      (.outOfRange (toString i) bits)
      fun b => b.length = bits / 8 ∧ Scale.signedValueOf b = i := by
  obtain ⟨width, rfl⟩ := hbytes
  constructor
  · intro hfits
    refine ⟨_, encodeInt_eq hfits, by simp [Scale.int], ?_⟩
    exact Scale.signedValueOf_int_of_range (by omega) hfits
  · intro hleaves
    have hnarrow : 8 * width < 128 := by
      by_contra hwide
      have hpow : (2 : Int) ^ 127 ≤ 2 ^ (8 * width - 1) := by
        exact_mod_cast Nat.pow_le_pow_right (show 0 < 2 by decide) (by omega)
      exact hleaves ⟨by omega, by omega⟩
    rw [encodeInt, Int.pow_eq, if_pos ⟨hpos, hnarrow, by omega⟩]

theorem encodeCompact_settles (width : CompactWidth) (n : Nat) :
    Settles (encodeCompact width n) (n < 2 ^ width.bits) (.outOfRange (toString n) width.bits)
      fun b => Scale.readCompact b = some (n, []) := by
  constructor
  · intro hfits
    refine ⟨_, encodeCompact_eq hfits, ?_⟩
    have hread := Scale.readCompact_compact_append (Scale.lt_bound_of_lt_width hfits) []
    rwa [List.append_nil, Scale.compact_eq_compactOf] at hread
  · intro hleaves
    have hpos := Nat.two_pow_pos width.bits
    rw [encodeCompact, Scale.compactMax, Nat.pow_eq, if_pos (by omega)]

namespace SourceUnit

/-- An integer that a value holds is encoded if the width of the encoding can represent it:
then in just this many bytes, or as a compact integer, from which it can be read back. Any
other is out of range. The same comes out of the arithmetic of machine words, in which
nothing overflows, however wide the encoding. -/
theorem encode_integer (unit : SourceUnit) {bits : Nat} (hpos : 0 < bits) (hbytes : 8 ∣ bits)
    (width : CompactWidth) (v : BitVec 128) :
    Settles (unit.encode (.uint bits) (.uint v.toNat)) (v.toNat < 2 ^ bits)
        (.outOfRange (toString v.toNat) bits)
        (fun b => b.length = bits / 8 ∧ Scale.valueOf b = v.toNat) ∧
      Settles (unit.encode (.int bits) (.int v.toInt))
        (-2 ^ (bits - 1) ≤ v.toInt ∧ v.toInt < 2 ^ (bits - 1))
        (.outOfRange (toString v.toInt) bits)
        (fun b => b.length = bits / 8 ∧ Scale.signedValueOf b = v.toInt) ∧
      Settles (unit.encode (.compact width) (.uint v.toNat)) (v.toNat < 2 ^ width.bits)
        (.outOfRange (toString v.toNat) width.bits)
        (fun b => Scale.readCompact b = some (v.toNat, [])) ∧
      OnWords.encodeUint? bits v = some (unit.encode (.uint bits) (.uint v.toNat)) ∧
      OnWords.encodeInt? bits v = some (unit.encode (.int bits) (.int v.toInt)) ∧
      OnWords.encodeCompact? width v = some (unit.encode (.compact width) (.uint v.toNat)) := by
  have huint : unit.encode (.uint bits) (.uint v.toNat) = encodeUint bits v.toNat := by
    rw [encode_scalar (by simp), encodeScalar]
  have hint : unit.encode (.int bits) (.int v.toInt) = encodeInt bits v.toInt := by
    rw [encode_scalar (by simp), encodeScalar]
  have hcompact : unit.encode (.compact width) (.uint v.toNat) =
      encodeCompact width v.toNat := by
    rw [encode_scalar (by simp), encodeScalar]
  rw [huint, hint, hcompact]
  exact ⟨encodeUint_settles hbytes v.isLt, encodeInt_settles hpos hbytes ⟨v.le_toInt, v.toInt_lt⟩,
    encodeCompact_settles width v.toNat, OnWords.encodeUint?_eq bits v,
    OnWords.encodeInt?_eq hpos v, OnWords.encodeCompact?_eq width v⟩

/-- The least integer of eight bits. The same word without a sign is out of range. -/
theorem encode_integer_least :
    let unit : SourceUnit := ⟨"Demo", "DemoCodecs", [], [], []⟩
    let v : BitVec 128 := -128
    v.toInt = -128 ∧ 0 < 8 ∧ 8 ∣ 8 ∧
      unit.encode (.int 8) (.int (-128)) = .ok [128] ∧
      unit.encode (.uint 8) (.uint (2 ^ 128 - 128)) =
        .error (.outOfRange "340282366920938463463374607431768211328" 8) := by
  intro unit v
  have hint : v.toInt = -128 := by decide +kernel
  have hnat : v.toNat = 2 ^ 128 - 128 := by decide +kernel
  have hstays : OnWords.leavesInt? 8 v = some false := by decide +kernel
  have hbytes : Machine.bytes v 8 255 = [128] := by decide +kernel
  have hwritten : OnWords.encodeInt? 8 v = some (.ok [128]) := by
    rw [OnWords.encodeInt?, hstays, if_pos (by decide +kernel), hbytes]
    rfl
  obtain ⟨⟨-, hlarge⟩, -, -, -, hsame, -⟩ :=
    encode_integer unit (show 0 < 8 by decide) (Nat.dvd_refl 8) .u8 v
  rw [hint, hwritten] at hsame
  rw [hnat] at hlarge
  exact ⟨hint, by decide, Nat.dvd_refl 8, (Option.some.inj hsame).symm, hlarge (by decide)⟩

end SourceUnit

end ScaleCalls.Solidity
