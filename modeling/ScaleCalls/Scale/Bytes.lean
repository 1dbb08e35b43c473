import ScaleCalls.TypeName.Primitive

/-!
# SCALE byte layouts

The bytes of single values. Every byte that a generated encoder returns is put
together from these functions.

Unsigned and signed integers have a fixed number of bytes, least significant
first. A compact integer has its mode in the low two bits of the first byte: one,
two or four bytes that hold the value above the mode, or, from `2 ^ 30` on, the
number of following bytes less four, and then the value.

## Main definitions

- `Scale.littleEndian` — the low bytes of a number
- `Scale.compact` — compact integers
- `Scale.uint`, `Scale.int` — integers of a given width
-/

namespace ScaleCalls

abbrev Bytes := List UInt8

namespace Scale

/-- The low `width` bytes of a number, least significant first. -/
def littleEndian : (width : Nat) → Nat → Bytes
  | 0, _ => []
  | width + 1, n => UInt8.ofNat n :: littleEndian width (n / 256)

/-- The number of bytes up to the most significant one that is not zero. -/
def significantBytes (n : Nat) : Nat :=
  if n = 0 then 0 else n.log2 / 8 + 1

def compact (n : Nat) : Bytes :=
  if n < Nat.pow 2 6 then littleEndian 1 (4 * n)
  else if n < Nat.pow 2 14 then littleEndian 2 (4 * n + 1)
  else if n < Nat.pow 2 30 then littleEndian 4 (4 * n + 2)
  else
    let len := max 4 (significantBytes n)
    UInt8.ofNat (4 * (len - 4) + 3) :: littleEndian len n

/-- The largest number that a compact of this width may carry. -/
def compactMax (width : CompactWidth) : Nat := Nat.pow 2 width.bits - 1

/-- An unsigned integer of `bits / 8` bytes; what lies above is cut off. -/
def uint (n : Nat) (bits : Nat) : Bytes := littleEndian (bits / 8) n

/-- An integer of `bits / 8` bytes in two's complement. -/
def int (i : Int) (bits : Nat) : Bytes :=
  littleEndian (bits / 8) (i % Int.pow 2 (8 * (bits / 8))).toNat

def bool (b : Bool) : Bytes := [if b then 1 else 0]

def bytes (b : Bytes) : Bytes := compact b.length ++ b

/-- The byte 0 for nothing, the byte 1 in front of something. -/
def option : Option Bytes → Bytes
  | none => [0]
  | some inner => 1 :: inner

/-- An account id as an address: the byte 0 of the variant `Id`, then the id. -/
def multiAddress (account : Bytes) : Bytes := 0 :: account

/-- The two bytes that select a call: group, then call within the group. -/
def callIndex (group call : UInt8) : Bytes := [group, call]

@[simp] theorem length_littleEndian (width n : Nat) : (littleEndian width n).length = width := by
  induction width generalizing n with
  | zero => rfl
  | succ width ih => simp [littleEndian, ih]

end Scale

end ScaleCalls
