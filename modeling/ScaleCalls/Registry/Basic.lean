/-!
# Portable type registries

The types of a runtime as a node describes them: a table of types that refer to
each other by number. The number of a type is its position in the table; the id
that is written beside a type says how the type calls itself.

## Main definitions

- `Registry`, `Registry.Entry`, `Registry.Definition`
- `Registry.get?` — the type at a position
-/

namespace ScaleCalls

/-- The scalars of a registry. -/
inductive Registry.Scalar where
  | bool | char | str
  | u8 | u16 | u32 | u64 | u128 | u256
  | i8 | i16 | i32 | i64 | i128 | i256
  deriving Repr, DecidableEq

/-- A field of a composite type or of a variant. -/
structure Registry.Field where
  name : Option String
  type : UInt32
  deriving Repr, DecidableEq

/-- A variant of an enum. -/
structure Registry.Variant where
  name : String
  index : UInt8
  fields : List Registry.Field
  deriving Repr, DecidableEq

/-- What a type is made of. -/
inductive Registry.Definition where
  | composite (fields : List Registry.Field)
  | variant (variants : List Registry.Variant)
  | sequence (elem : UInt32)
  | array (len : Nat) (elem : UInt32)
  | tuple (elems : List UInt32)
  | scalar (kind : Registry.Scalar)
  | compact (inner : UInt32)
  | bitSequence
  deriving Repr, DecidableEq

/-- A parameter of a generic type, with the type that it stands for. -/
structure Registry.Param where
  name : String
  type : Option UInt32
  deriving Repr, DecidableEq

/-- A type of the table. -/
structure Registry.Entry where
  id : UInt32
  path : List String
  params : List Registry.Param
  definition : Registry.Definition
  deriving Repr, DecidableEq

/-- A table of types. -/
structure Registry where
  types : Array Registry.Entry
  deriving Repr, DecidableEq

namespace Registry

def Scalar.word : Scalar → String
  | bool => "bool"
  | char => "char"
  | str => "str"
  | u8 => "u8"
  | u16 => "u16"
  | u32 => "u32"
  | u64 => "u64"
  | u128 => "u128"
  | u256 => "u256"
  | i8 => "i8"
  | i16 => "i16"
  | i32 => "i32"
  | i64 => "i64"
  | i128 => "i128"
  | i256 => "i256"

def get? (registry : Registry) (number : UInt32) : Option Entry :=
  registry.types[number.toNat]?

/-- The type inside a composite with a single field. Such a composite adds nothing
to the encoding of its field. -/
def Entry.wrapped? (entry : Entry) : Option UInt32 :=
  match entry.definition with
  | .composite [field] => some field.type
  | _ => none

end Registry

end ScaleCalls
