import ScaleCalls.TypeName.Category
import ScaleCalls.Types.Fault

/-!
# Type descriptors

A resolved type. The types inside it are referred to by their canonical names,
the handles, so that recursive types need nothing special.

## Main definitions

- `TypeKind`, `Descriptor`
- `Descriptor.children` — the handles inside, in the order of the encoding
- `Descriptor.isLeaf` — types that need no declaration of their own
-/

namespace ScaleCalls

/-- A field of a struct or of a variant. -/
structure Field where
  /-- No name for a field that has only a position. -/
  name : Option String
  handle : String
  deriving Repr, DecidableEq

/-- A variant with the byte that marks it. -/
structure Variant where
  name : String
  discriminant : UInt8
  fields : List Field
  deriving Repr, DecidableEq

/-- The layout of a resolved type. -/
inductive TypeKind where
  | primitive (kind : Primitive)
  | fixedBytes (len : Nat)
  | fixedArray (elem : String) (len : Nat)
  | vector (elem : String)
  | boundedVector (elem : String) (bound : Option Nat)
  | option (elem : String)
  | compact (width : CompactWidth)
  /-- The fields of a struct, in order. -/
  | record (fields : List Field)
  /-- The variants of an enum, by discriminant. -/
  | enum (variants : List Variant)
  /-- No layout; the fault is kept for reports. -/
  | unsupported (fault : TypeFault)
  deriving Repr, DecidableEq

namespace TypeKind

/-- The handles inside, in the order of the encoding. -/
def children : TypeKind → List String
  | fixedArray elem _ | vector elem | boundedVector elem _ | option elem => [elem]
  | record fields => fields.map Field.handle
  | enum variants => variants.flatMap fun v => v.fields.map Field.handle
  | primitive _ | fixedBytes _ | compact _ | unsupported _ => []

/-- Kinds that need no declaration of their own. -/
def isLeaf : TypeKind → Bool
  | primitive _ | fixedBytes _ | compact _ | unsupported _ => true
  | fixedArray _ _ | vector _ | boundedVector _ _ | option _ | record _ | enum _ => false

/-- The kind without a layout. -/
def isUnsupported : TypeKind → Bool
  | unsupported _ => true
  | _ => false

def element? : TypeKind → Option String
  | fixedArray elem _ | vector elem | boundedVector elem _ | option elem => some elem
  | _ => none

end TypeKind

/-- A resolved type under its canonical name. -/
structure Descriptor where
  name : String
  kind : TypeKind
  deriving Repr, DecidableEq

namespace Descriptor

/-- The handles inside, in the order of the encoding. -/
def children (d : Descriptor) : List String := d.kind.children

def isLeaf (d : Descriptor) : Bool := d.kind.isLeaf

/-- The type has no layout. -/
def isUnsupported (d : Descriptor) : Bool := d.kind.isUnsupported

end Descriptor

def Variant.named? (variants : List Variant) (name : String) : Option Variant :=
  variants.find? fun v => v.name == name

end ScaleCalls
