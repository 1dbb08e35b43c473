import ScaleCalls.Proofs.Scale.LittleEndian

/-!
# Machine words

A machine word holds an integer of a fixed width. An operation on words gives no result
where the machine would report an overflow: where a shift moves everything out, or where a
difference or a negative cannot be held. The bytes of a word are cut or filled up to the
width that is asked for.

## Main definitions

- `Machine.shiftLeft?`, `Machine.shiftRight?`, `Machine.minus?`, `Machine.signedMinus?`,
  `Machine.negate?` — operations that may overflow
- `Machine.bytes` — the bytes of a word in a given width

## Main statements

- `Machine.bytes_unsigned`, `Machine.bytes_signed` — these are the bytes of the integer
-/

namespace ScaleCalls

namespace Scale

/-- Bytes of an integer are cut or filled up to other bytes of the same integer, where the
filling is what all higher bytes are. -/
theorem takeD_bytesOf {len : Nat} {i : Int} {fill : UInt8}
    (hfill : ∀ k, len ≤ k → UInt8.ofNat (i / 256 ^ k % 256).toNat = fill) (width : Nat) :
    (bytesOf len i).takeD width fill = bytesOf width i := by
  induction width generalizing len i with
  | zero => rfl
  | succ width ih =>
    have hrest : ∀ k, len ≤ k + 1 → UInt8.ofNat (i / 256 / 256 ^ k % 256).toNat = fill := by
      intro k hk
      rw [Int.ediv_ediv_of_nonneg (by decide), ← Int.pow_succ']
      exact hfill (k + 1) hk
    rw [List.takeD_succ, bytesOf_succ]
    cases len with
    | zero =>
      have hfirst : UInt8.ofNat (i % 256).toNat = fill := by
        simpa using hfill 0 (Nat.le_refl 0)
      have hnext : (bytesOf 0 (i / 256)).takeD width fill = bytesOf width (i / 256) :=
        ih fun k _ => hrest k (Nat.zero_le _)
      rw [hfirst, ← hnext]
      rfl
    | succ len =>
      rw [bytesOf_succ, List.head?_cons, Option.getD_some, List.tail_cons,
        ih fun k hk => hrest k (Nat.succ_le_succ hk)]

end Scale

namespace Machine

open Scale

section Arithmetic

variable {w : Nat}

def shiftLeft? (v : BitVec w) (amount : Nat) : Option (BitVec w) :=
  if amount < w then some (v <<< amount) else none

def shiftRight? (v : BitVec w) (amount : Nat) : Option (BitVec w) :=
  if amount < w then some (v >>> amount) else none

/-- The difference of two words without a sign. -/
def minus? (a b : BitVec w) : Option (BitVec w) :=
  if a.usubOverflow b then none else some (a - b)

/-- The difference of two words with a sign. -/
def signedMinus? (a b : BitVec w) : Option (BitVec w) :=
  if a.ssubOverflow b then none else some (a - b)

def negate? (a : BitVec w) : Option (BitVec w) :=
  if a.negOverflow then none else some (-a)

variable {n : Nat}

theorem shiftLeft?_one (h : n < w) : shiftLeft? (1 : BitVec w) n = some (BitVec.twoPow w n) :=
  if_pos h

/-- The largest number of `n` bits. -/
theorem minus?_twoPow (h : n < w) :
    ∃ most, minus? (BitVec.twoPow w n) 1 = some most ∧ most.toNat = 2 ^ n - 1 := by
  have hpow : (BitVec.twoPow w n).toNat = 2 ^ n := by
    rw [BitVec.toNat_twoPow, Nat.mod_eq_of_lt (Nat.pow_lt_pow_right (by decide) h)]
  have hone : (1 : BitVec w).toNat = 1 := by
    have := Nat.one_lt_two_pow (show w ≠ 0 by omega)
    simp [Nat.mod_eq_of_lt this]
  have hfits : ¬(BitVec.twoPow w n).usubOverflow 1 := by
    have := Nat.two_pow_pos n
    rw [BitVec.usubOverflow, decide_eq_true_eq, hpow, hone]
    omega
  refine ⟨_, if_neg hfits, ?_⟩
  rw [BitVec.toNat_sub_of_not_usubOverflow hfits, hpow, hone]

theorem toInt_twoPow (h : n + 1 < w) : (BitVec.twoPow w n).toInt = 2 ^ n := by
  rw [BitVec.toInt_twoPow, if_neg (by omega), if_neg (by omega)]

/-- The least integer of `n` bits and a sign. -/
theorem negate?_twoPow (h : n + 1 < w) :
    ∃ least, negate? (BitVec.twoPow w n) = some least ∧ least.toInt = -2 ^ n := by
  have hfits : ¬(BitVec.twoPow w n).negOverflow := by
    have hn : (0 : Int) < 2 ^ n := Int.pow_pos (by decide)
    have hw : (0 : Int) < 2 ^ (w - 1) := Int.pow_pos (by decide)
    rw [BitVec.negOverflow, beq_iff_eq, toInt_twoPow h]
    omega
  refine ⟨_, if_neg hfits, ?_⟩
  rw [BitVec.toInt_neg_of_not_negOverflow hfits, toInt_twoPow h]

/-- The largest integer of `n` bits and a sign. -/
theorem signedMinus?_twoPow (h : n + 1 < w) :
    ∃ most, signedMinus? (BitVec.twoPow w n) 1 = some most ∧ most.toInt = 2 ^ n - 1 := by
  have hone : (1 : BitVec w).toInt = 1 := by
    have htwo := toInt_twoPow (n := 0) (show 0 + 1 < w by omega)
    rwa [BitVec.twoPow_zero] at htwo
  have hfits : ¬(BitVec.twoPow w n).ssubOverflow 1 := by
    have hn : (0 : Int) < 2 ^ n := Int.pow_pos (by decide)
    have hw : (2 : Int) ^ n < 2 ^ (w - 1) := Int.pow_lt_pow_of_lt (by decide) (by omega)
    rw [BitVec.ssubOverflow, Bool.or_eq_true, decide_eq_true_eq, decide_eq_true_eq,
      toInt_twoPow h, hone]
    omega
  refine ⟨_, if_neg hfits, ?_⟩
  rw [BitVec.toInt_sub_of_not_ssubOverflow hfits, toInt_twoPow h, hone]

end Arithmetic

/-- The bytes of a word, cut or filled up with a byte. -/
def bytes (v : BitVec 128) (bits : Nat) (fill : UInt8) : Bytes :=
  (littleEndian 16 v.toNat).takeD (bits / 8) fill

theorem bytes_unsigned (v : BitVec 128) (bits : Nat) : bytes v bits 0 = uint v.toNat bits := by
  rw [bytes, littleEndian_eq_bytesOf, uint_eq_bytesOf]
  refine takeD_bytesOf (fun k hk => ?_) _
  have hlt : v.toNat < 256 ^ k :=
    Nat.lt_of_lt_of_le v.isLt (Nat.pow_le_pow_right (show 0 < 256 by decide) hk)
  rw [Int.ediv_eq_zero_of_lt (by omega) (by exact_mod_cast hlt)]
  rfl

/-- A word with a sign is filled up with its sign. -/
theorem bytes_signed (v : BitVec 128) (bits : Nat) :
    bytes v bits (if v.slt 0 then 255 else 0) = int v.toInt bits := by
  have hlow : bytesOf 16 v.toNat = bytesOf 16 v.toInt := by
    have hsame : v.toInt % 256 ^ 16 = v.toNat % 256 ^ 16 := by
      rw [BitVec.toInt_eq_toNat_bmod]
      exact Int.bmod_emod
    rw [← bytesOf_emod, ← hsame, bytesOf_emod]
  have hleast : -2 ^ 127 ≤ v.toInt := v.le_toInt
  have hmost : v.toInt < 2 ^ 127 := v.toInt_lt
  rw [bytes, littleEndian_eq_bytesOf, int_eq_bytesOf, hlow]
  refine takeD_bytesOf (fun k hk => ?_) _
  have hpow : (256 : Int) ^ 16 ≤ 256 ^ k := by
    exact_mod_cast Nat.pow_le_pow_right (show 0 < 256 by decide) hk
  by_cases hneg : v.toInt < 0
  · have hslt : v.slt 0 := by simpa [BitVec.slt_iff_toInt_lt] using hneg
    rw [if_pos hslt, Int.ediv_eq_neg_one_of_neg_of_le hneg (by omega)]
    rfl
  · have hslt : ¬v.slt 0 := by simpa [BitVec.slt_iff_toInt_lt] using hneg
    rw [if_neg hslt, Int.ediv_eq_zero_of_lt (by omega) (by omega)]
    rfl

end Machine

end ScaleCalls
