import ScaleCalls.TypeName.Primitive

/-!
# Encodings

How one value is written: by one of the byte layouts, or by a generated codec
library that is named by its identifier.
-/

namespace ScaleCalls

/-- How a single value is written. -/
inductive Encoding where
  | bool
  /-- An unsigned integer of this many bits. -/
  | uint (bits : Nat)
  /-- A signed integer of this many bits. -/
  | int (bits : Nat)
  | compact (width : CompactWidth)
  /-- Raw bytes behind a compact length. -/
  | bytes
  /-- A text, written as the bytes of its UTF-8 form. -/
  | str
  | accountId32
  /-- An account id as an address. -/
  | multiAddressId32
  /-- Raw bytes of exactly this length. -/
  | fixedBytes (len : Nat)
  /-- The codec library of this name. -/
  | codec (name : String)
  deriving Repr, DecidableEq

/-- The letter and width by which messages name a compact integer. -/
def CompactWidth.label (width : CompactWidth) : String := s!"U{width.bits}"

def Encoding.label : Encoding → String
  | bool => "Bool"
  | uint bits => s!"Uint({bits})"
  | int bits => s!"Int({bits})"
  | compact width => s!"Compact({width.label})"
  | bytes => "Bytes"
  | str => "Str"
  | accountId32 => "AccountId32"
  | multiAddressId32 => "MultiAddressId32"
  | fixedBytes len => s!"FixedBytes({len})"
  | codec name => s!"Codec({name.quote})"

end ScaleCalls
