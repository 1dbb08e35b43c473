import Std.Data.TreeMap
import ScaleCalls.Solidity.Identifier
import ScaleCalls.Solidity.Scope
import ScaleCalls.TypeName.Brackets
import ScaleCalls.Types.Catalog

/-!
# Identifiers of types

Every type of a unit that needs a declaration gets an identifier of its own. A
container is named after its element: `VecU8` would be a vector of bytes,
`ArrayJunctionx2` an array of two junctions. All other types are named after the
last segment of their canonical name.

## Main definitions

- `TypeNames` — the identifiers given so far
- `TypeNames.name` — the identifier of a type, given to it when it has none yet

## Design notes

Naming a container names its element first, so one call follows a chain of
containers down to a type of another kind. A chain that does not come back to
where it was has at most as many links as the catalog has entries.
-/

namespace ScaleCalls.Solidity

/-- The word for a primitive inside the identifier of a container. -/
def primitiveWord : Primitive → String
  | .bool => "Bool"
  | .u8 => "U8"
  | .u16 => "U16"
  | .u32 => "U32"
  | .u64 => "U64"
  | .u128 => "U128"
  | .u256 => "U256"
  | .i8 => "I8"
  | .i16 => "I16"
  | .i32 => "I32"
  | .i64 => "I64"
  | .i128 => "I128"
  | .accountId32 => "AccountId32"
  | .multiAddressId32 => "MultiAddress"
  | .bytes => "Bytes"
  | .str => "String"

/-- The word for a type that has no identifier of its own. -/
def leafWord? (d : Descriptor) : Option String :=
  match d.kind with
  | .primitive kind => some (primitiveWord kind)
  | .fixedBytes len => some s!"Bytes{len}"
  | .compact width => some s!"CompactU{width.bits}"
  | .unsupported _ => some (pascal d.name)
  | _ => none

/-- The identifier that a type asks for; `word` stands for its element. -/
def baseName (d : Descriptor) (word : String) : String :=
  match d.kind with
  | .vector _ => s!"Vec{word}"
  | .boundedVector _ _ => s!"BoundedVec{word}"
  | .option _ => s!"Option{word}"
  | .fixedArray _ len => s!"Array{word}x{len}"
  | _ => pascal (String.ofList (TypeName.lastSegment d.name.toList))

/-- Identifiers by canonical name, and the scope that keeps them apart. -/
structure TypeNames where
  assigned : Std.TreeMap String String
  scope : Scope

namespace TypeNames

/-- No identifier given; the names in `reserved` are not to be given. -/
def reserving (reserved : List String) : TypeNames := ⟨∅, Scope.reserving reserved⟩

def get? (names : TypeNames) (typeName : String) : Option String := names.assigned[typeName]?

def assign (names : TypeNames) (typeName base : String) : String × TypeNames :=
  (names.scope.nameFor base,
    ⟨names.assigned.insert typeName (names.scope.nameFor base), (names.scope.claim base).2⟩)

/-- Names a type along a chain of containers of at most `fuel` links. -/
def nameWithin (catalog : Catalog) : (fuel : Nat) → TypeNames → Descriptor → String × TypeNames
  | 0, names, _ => ("", names)
  | fuel + 1, names, d =>
    match names.get? d.name with
    | some ident => (ident, names)
    | none =>
      match d.kind.element? with
      | none => names.assign d.name (baseName d "")
      | some elem =>
        match catalog.get? elem with
        | none => names.assign d.name (baseName d (pascal elem))
        | some e =>
          match leafWord? e with
          | some word => names.assign d.name (baseName d word)
          | none =>
            let (word, names) := nameWithin catalog fuel names e
            names.assign d.name (baseName d word)

/-- The identifier of a type, given to it when it has none yet. -/
def name (catalog : Catalog) (names : TypeNames) (d : Descriptor) : String × TypeNames :=
  nameWithin catalog (catalog.size + 1) names d

/-- The identifiers of several types, named one after the other. -/
def nameAll (catalog : Catalog) (names : TypeNames) (ds : List Descriptor) : TypeNames :=
  ds.foldl (fun names d => (names.name catalog d).2) names

end TypeNames

end ScaleCalls.Solidity
