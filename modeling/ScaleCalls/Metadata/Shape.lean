import ScaleCalls.Json.Printer

/-!
# Shapes of composite types

The shape of a struct or an enum as metadata stores it, before any reference in
it is resolved, and its closed JSON vocabulary:

* an object with the member `_enum` is an enum. Its value lists unit variants by
  name, or maps each variant to `null` (unit), a number (unit with an explicit
  index), a text (one field), an array of texts (fields by position) or an
  object (named fields);
* an object with the member `_struct` is a struct with the fields of that value;
* any other object is a struct with its own members as fields, unless a member
  starts with an underscore without naming a position.

A key names a position rather than a field when it consists of digits, or of
nothing, behind an optional underscore.

## Main definitions

- `Shape`, `Shape.Field`, `Shape.Variant`
- `ShapeFault` — why a value is no shape, or a shape no type
- `Shape.ofJson`, `Shape.toJson`
-/

namespace ScaleCalls

/-- A field: its name, unless it has only a position, and a type reference. -/
structure Shape.Field where
  name : Option String
  reference : String
  deriving Repr, DecidableEq

/-- A variant of an enum. -/
structure Shape.Variant where
  name : String
  /-- The explicit index, where one is given. -/
  index : Option UInt8
  fields : List Shape.Field
  deriving Repr, DecidableEq

/-- The shape of a composite type. -/
inductive Shape where
  | record (fields : List Shape.Field)
  | enum (variants : List Shape.Variant)
  deriving Repr, DecidableEq

def Shape.references : Shape → List String
  | record fields => fields.map Shape.Field.reference
  | enum variants => variants.flatMap fun v => v.fields.map Shape.Field.reference

/-- Why a composite shape is rejected. -/
inductive ShapeFault where
  | emptyEnum
  /-- Named and positional fields side by side. -/
  | mixedFieldNaming (name : String)
  | duplicateIndex (index : UInt8)
  /-- Outside of the vocabulary; the text shows the offending value. -/
  | unrecognized (text : String)
  deriving Repr, DecidableEq

def ShapeFault.message : ShapeFault → String
  | emptyEnum => "enum has no variants"
  | mixedFieldNaming name => s!"`{name}` mixes named and positional fields"
  | duplicateIndex index => s!"duplicate variant index {index.toNat}"
  | unrecognized text => s!"unrecognized shape: {text}"

namespace Shape

def enumMarker : String := "_enum"

def structMarker : String := "_struct"

/-- The characters of a key behind an optional underscore. -/
def withoutUnderscore : List Char → List Char
  | '_' :: cs => cs
  | cs => cs

/-- A key that names a position: digits or nothing behind an optional underscore. -/
def isPositionalKey (key : String) : Bool :=
  (withoutUnderscore key.toList).all Char.isDigit

/-- A key that starts with an underscore and names no position. -/
def isMarkerKey (key : String) : Bool :=
  key.toList.head? == some '_' && !isPositionalKey key

/-- The compact text of a value, cut to 57 characters when it has more than 60. -/
def excerpt (value : Json) : String :=
  let text := value.compactChars
  if 60 < text.length then String.ofList (text.take 57) ++ "..." else String.ofList text

/-- The fault of a value outside of the vocabulary. -/
def unrecognizedValue (value : Json) : ShapeFault := .unrecognized (excerpt value)

def fieldOfMember (member : String × Json) : Except ShapeFault Field :=
  match member.2 with
  | .string reference =>
    .ok ⟨if isPositionalKey member.1 then none else some member.1, reference⟩
  | value => .error (.unrecognized s!"{member.1}: {excerpt value}")

/-- The fields that the members of an object describe. -/
def fieldsOfMembers (members : Json.Members) : Except ShapeFault (List Field) :=
  members.mapM fieldOfMember

def fieldOfItem : Json → Except ShapeFault Field
  | .string reference => .ok ⟨none, reference⟩
  | value => .error (unrecognizedValue value)

/-- An explicit index: an integer that fits a byte. -/
def index? : Json.Number → Option UInt8
  | .integer i => if 0 ≤ i ∧ i < 256 then some (UInt8.ofNat i.toNat) else none
  | .real _ => none

/-- A variant from its name and the value that describes it. -/
def variantOfMember (member : String × Json) : Except ShapeFault Variant :=
  match member.2 with
  | .null => .ok ⟨member.1, none, []⟩
  | .number n =>
    match index? n with
    | some index => .ok ⟨member.1, some index, []⟩
    | none => .error (.unrecognized s!"{member.1}: {String.ofList n.text}")
  | .string reference => .ok ⟨member.1, none, [⟨none, reference⟩]⟩
  | .array items => do return ⟨member.1, none, ← items.mapM fieldOfItem⟩
  | .object members => do return ⟨member.1, none, ← fieldsOfMembers members⟩
  | .bool b => .error (unrecognizedValue (.bool b))

/-- A unit variant from an item of a list of names. -/
def variantOfItem : Json → Except ShapeFault Variant
  | .string name => .ok ⟨name, none, []⟩
  | value => .error (unrecognizedValue value)

/-- The variants that the value of the enum marker describes. -/
def variantsOfJson : Json → Except ShapeFault (List Variant)
  | .array names => names.mapM variantOfItem
  | .object members => members.mapM variantOfMember
  | value => .error (unrecognizedValue value)

def ofJson : Json → Except ShapeFault Shape
  | .object members =>
    match Json.Members.find? members enumMarker with
    | some variants => do return .enum (← variantsOfJson variants)
    | none =>
      match Json.Members.find? members structMarker with
      | some (.object fields) => do return .record (← fieldsOfMembers fields)
      | some value => .error (unrecognizedValue value)
      | none =>
        if members.any fun m => isMarkerKey m.1 then .error (unrecognizedValue (.object members))
        else do return .record (← fieldsOfMembers members)
  | value => .error (unrecognizedValue value)

/-- The key of a field: its name, or its position behind an underscore. -/
def fieldKey (position : Nat) (field : Field) : String :=
  field.name.getD s!"_{position}"

def fieldsToPairs : (position : Nat) → List Field → List (String × Json)
  | _, [] => []
  | position, field :: fields =>
    (fieldKey position field, .string field.reference) :: fieldsToPairs (position + 1) fields

def fieldsToJson (fields : List Field) : Json :=
  .object (Json.Members.ofPairs (fieldsToPairs 0 fields))

/-- The value that describes a variant. Fields hide an explicit index. -/
def variantToJson (variant : Variant) : Json :=
  match variant.fields with
  | [] =>
    match variant.index with
    | some index => .number (.integer index.toNat)
    | none => .null
  | [⟨none, reference⟩] => .string reference
  | fields =>
    if fields.all fun f => f.name.isNone then .array (fields.map fun f => .string f.reference)
    else fieldsToJson fields

def toJson : Shape → Json
  | record fields => .object [(structMarker, fieldsToJson fields)]
  | enum variants =>
    .object [(enumMarker, .object (Json.Members.ofPairs
      (variants.map fun v => (v.name, variantToJson v))))]

end Shape

end ScaleCalls
