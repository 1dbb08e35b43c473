import Mathlib.Tactic.Positivity
import Mathlib.Tactic.Ring
import ScaleCalls.Scale.Bytes

/-!
# Little-endian integers

An integer of a given width is the list of its bytes, the `k`-th of which is the
integer divided by `256 ^ k`, below 256. For a negative integer the division rounds
down, which makes this its two's complement.

## Main definitions

- `Scale.bytesOf` — the low bytes of an integer, each computed on its own
- `Scale.valueOf` — the number that bytes stand for
- `Scale.signedValueOf` — the integer that they stand for in two's complement

## Main statements

- `Scale.uint_eq_bytesOf`, `Scale.int_eq_bytesOf` — the encoders write these bytes
- `Scale.valueOf_littleEndian`, `Scale.littleEndian_valueOf` — the number is recovered from its
  bytes, and these from the number
- `Scale.signedValueOf_int` — the integer is recovered from its bytes
-/

namespace ScaleCalls.Scale

/-- The low `width` bytes of an integer, least significant first. -/
def bytesOf (width : Nat) (i : Int) : Bytes :=
  (List.range width).map fun k => UInt8.ofNat (i / 256 ^ k % 256).toNat

/-- The number that some bytes stand for, least significant first. -/
def valueOf : Bytes → Nat
  | [] => 0
  | b :: bs => b.toNat + 256 * valueOf bs

/-- The integer that some bytes stand for in two's complement, least significant first. -/
def signedValueOf (b : Bytes) : Int := (valueOf b : Int).bmod (256 ^ b.length)

theorem ofNat_mod (n : Nat) : UInt8.ofNat (n % 256) = UInt8.ofNat n := by
  rw [← UInt8.toNat_inj]
  simp

theorem littleEndian_eq_map (width n : Nat) :
    littleEndian width n = (List.range width).map fun k => UInt8.ofNat (n / 256 ^ k) := by
  induction width generalizing n with
  | zero => rfl
  | succ width ih =>
    rw [littleEndian, ih, List.range_succ_eq_map, List.map_cons, List.map_map]
    refine congrArg₂ List.cons (by simp) (List.map_congr_left fun k _ => ?_)
    rw [Function.comp_apply, Nat.pow_succ', Nat.div_div_eq_div_mul]

/-- The bytes can be put together from the least significant one on. -/
theorem littleEndian_succ_eq_append (width n : Nat) :
    littleEndian (width + 1) n = littleEndian width n ++ [UInt8.ofNat (n / 256 ^ width)] := by
  rw [littleEndian_eq_map, littleEndian_eq_map, List.range_succ, List.map_append,
    List.map_singleton]

theorem littleEndian_eq_bytesOf (width n : Nat) : littleEndian width n = bytesOf width n := by
  rw [littleEndian_eq_map, bytesOf]
  refine List.map_congr_left fun k _ => ?_
  have : ((n : Int) / 256 ^ k % 256).toNat = n / 256 ^ k % 256 := by
    rw [show (n : Int) / 256 ^ k % 256 = ((n / 256 ^ k % 256 : Nat) : Int) by push_cast; rfl]
    exact Int.toNat_natCast _
  rw [this, ofNat_mod]

theorem bytesOf_succ (width : Nat) (i : Int) :
    bytesOf (width + 1) i = UInt8.ofNat (i % 256).toNat :: bytesOf width (i / 256) := by
  rw [bytesOf, List.range_succ_eq_map, List.map_cons, List.map_map, bytesOf]
  refine congrArg₂ List.cons (by simp) (List.map_congr_left fun k _ => ?_)
  rw [Function.comp_apply, Int.ediv_ediv_of_nonneg (by decide), Int.pow_succ', Int.mul_comm]

theorem uint_eq_bytesOf (n bits : Nat) : uint n bits = bytesOf (bits / 8) n :=
  littleEndian_eq_bytesOf _ n

/-- Bytes below the width do not see what is cut off above it. -/
theorem bytesOf_emod (width : Nat) (i : Int) :
    bytesOf width (i % 256 ^ width) = bytesOf width i := by
  refine List.map_congr_left fun k hk => ?_
  obtain ⟨rest, rfl⟩ := Nat.exists_eq_add_of_lt (List.mem_range.1 hk)
  have hcut : i % 256 ^ (k + rest + 1) =
      i - 256 ^ k * (256 * (256 ^ rest * (i / 256 ^ (k + rest + 1)))) := by
    rw [Int.emod_def, Int.pow_succ, Int.pow_add]
    ring
  rw [hcut, Int.sub_mul_ediv_left _ _ (by positivity), Int.sub_mul_emod_self_left]

theorem int_eq_bytesOf (i : Int) (bits : Nat) : int i bits = bytesOf (bits / 8) i := by
  have hpow : (2 : Int) ^ (8 * (bits / 8)) = 256 ^ (bits / 8) := by
    rw [Int.pow_mul]
    rfl
  have hnonneg : 0 ≤ i % 256 ^ (bits / 8) := Int.emod_nonneg _ (by positivity)
  rw [int, littleEndian_eq_bytesOf, Int.pow_eq, hpow, Int.toNat_of_nonneg hnonneg, bytesOf_emod]

theorem valueOf_littleEndian (width n : Nat) :
    valueOf (littleEndian width n) = n % 256 ^ width := by
  induction width generalizing n with
  | zero => simp [littleEndian, valueOf, Nat.mod_one]
  | succ width ih =>
    rw [littleEndian, valueOf, ih, Nat.pow_succ', Nat.mod_mul]
    simp

theorem valueOf_lt (b : Bytes) : valueOf b < 256 ^ b.length := by
  induction b with
  | nil => decide
  | cons byte b ih =>
    rw [valueOf, List.length_cons, Nat.pow_succ']
    have := byte.toNat_lt
    omega

theorem littleEndian_valueOf (b : Bytes) : littleEndian b.length (valueOf b) = b := by
  induction b with
  | nil => rfl
  | cons byte b ih =>
    have hbyte := byte.toNat_lt
    have hrest : valueOf (byte :: b) / 256 = valueOf b := by
      rw [valueOf]
      omega
    have hlow : UInt8.ofNat (valueOf (byte :: b)) = byte := by
      rw [← ofNat_mod, valueOf, Nat.add_mul_mod_self_left, Nat.mod_eq_of_lt hbyte]
      exact UInt8.ofNat_toNat
    rw [List.length_cons, littleEndian, hrest, ih, hlow]

/-- Numbers that fit the width have different bytes. -/
theorem littleEndian_inj {width m n : Nat} (hm : m < 256 ^ width) (hn : n < 256 ^ width)
    (h : littleEndian width m = littleEndian width n) : m = n := by
  have := congrArg valueOf h
  rwa [valueOf_littleEndian, valueOf_littleEndian, Nat.mod_eq_of_lt hm, Nat.mod_eq_of_lt hn]
    at this

/-- What is read back is the integer around zero that the width cannot tell from the one
that was written. -/
theorem signedValueOf_int (i : Int) (width : Nat) :
    signedValueOf (int i (8 * width)) = i.bmod (256 ^ width) := by
  have hpow : (2 : Int) ^ (8 * width) = ((256 ^ width : Nat) : Int) := by
    rw [Int.pow_mul]
    push_cast
    rfl
  have hpos : 0 < ((256 ^ width : Nat) : Int) := by positivity
  have hnonneg : 0 ≤ i % ((256 ^ width : Nat) : Int) := Int.emod_nonneg _ (by omega)
  have hlt : i % ((256 ^ width : Nat) : Int) < ((256 ^ width : Nat) : Int) :=
    Int.emod_lt_of_pos _ hpos
  rw [signedValueOf, int, length_littleEndian, valueOf_littleEndian,
    Nat.mul_div_cancel_left _ (by decide), Int.pow_eq, hpow, Nat.mod_eq_of_lt (by omega),
    Int.toNat_of_nonneg hnonneg, Int.emod_bmod]

theorem signedValueOf_int_of_range {width : Nat} (hwidth : 0 < width) {i : Int}
    (hi : -2 ^ (8 * width - 1) ≤ i ∧ i < 2 ^ (8 * width - 1)) :
    signedValueOf (int i (8 * width)) = i := by
  have hrange : ((256 ^ width : Nat) : Int) = 2 * 2 ^ (8 * width - 1) := by
    rw [← Int.pow_succ', Nat.sub_add_cancel (by omega), Int.pow_mul]
    push_cast
    rfl
  rw [signedValueOf_int]
  exact Int.bmod_eq_of_le_mul_two (by omega) (by omega)

/-- Integers in the range of the width have different bytes. -/
theorem int_inj {width : Nat} (hwidth : 0 < width) {i j : Int}
    (hi : -2 ^ (8 * width - 1) ≤ i ∧ i < 2 ^ (8 * width - 1))
    (hj : -2 ^ (8 * width - 1) ≤ j ∧ j < 2 ^ (8 * width - 1))
    (h : int i (8 * width) = int j (8 * width)) : i = j := by
  rw [← signedValueOf_int_of_range hwidth hi, h, signedValueOf_int_of_range hwidth hj]

end ScaleCalls.Scale
