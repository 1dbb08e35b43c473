/-!
# Primitive encodings

The values that the codec library writes without help of a generated codec, and
the widths of the integers that may stand behind a compact encoding.
-/

namespace ScaleCalls

/-- A value with a fixed layout of its own. -/
inductive Primitive where
  | bool
  | u8 | u16 | u32 | u64 | u128 | u256
  | i8 | i16 | i32 | i64 | i128
  /-- An account id of 32 bytes. -/
  | accountId32
  /-- An address, always written as its `Id` variant. -/
  | multiAddressId32
  /-- Raw bytes behind a compact length. -/
  | bytes
  /-- A text, written as the bytes of its UTF-8 form. -/
  | str
  deriving Repr, DecidableEq

namespace Primitive

def bits? : Primitive → Option Nat
  | u8 | i8 => some 8
  | u16 | i16 => some 16
  | u32 | i32 => some 32
  | u64 | i64 => some 64
  | u128 | i128 => some 128
  | u256 => some 256
  | bool | accountId32 | multiAddressId32 | bytes | str => none

/-- The integer kinds that hold negative values. -/
def isSigned : Primitive → Bool
  | i8 | i16 | i32 | i64 | i128 => true
  | _ => false

end Primitive

/-- The width of the integer behind a compact encoding. -/
inductive CompactWidth where
  | u8 | u16 | u32 | u64 | u128
  deriving Repr, DecidableEq

def CompactWidth.bits : CompactWidth → Nat
  | u8 => 8
  | u16 => 16
  | u32 => 32
  | u64 => 64
  | u128 => 128

end ScaleCalls
