import ScaleCalls.Metadata.TypeTable
import ScaleCalls.TypeName.Classify
import ScaleCalls.Types.Descriptor

/-!
# From names to descriptors

What stands behind a canonical name. A name with a layout of its own is taken at
its word; every other name needs the shape that is stored for it. The descriptor
depends on nothing but the table and the name.

The variants of an enum are numbered anew from zero. They are ordered by explicit
index; a variant without one takes part with its declared position, and of two
with the same number the one declared first comes first.

## Main definitions

- `TypeTable.describe` — the descriptor of a name
- `TypeTable.variants` — the variants of an enum, ordered and numbered
-/

namespace ScaleCalls

/-- Named and positional fields stand side by side. -/
def Shape.mixesNaming (fields : List Shape.Field) : Bool :=
  (fields.any fun f => f.name.isSome) && fields.any fun f => f.name.isNone

def Shape.firstName (fields : List Shape.Field) : String :=
  (fields.findSome? Shape.Field.name).getD ""

/-- The number by which a variant is ordered. -/
def Shape.orderKey (variant : Shape.Variant × Nat) : Nat :=
  (variant.1.index.map UInt8.toNat).getD variant.2

/-- The variants in the order of their discriminants. -/
def Shape.ordered (variants : List Shape.Variant) : List Shape.Variant :=
  (variants.zipIdx.mergeSort fun a b => orderKey a ≤ orderKey b).map Prod.fst

/-- The first value of a list that occurs earlier in it or in `seen`. -/
def firstRepeat? (seen : List UInt8) : List UInt8 → Option UInt8
  | [] => none
  | i :: is => if seen.contains i then some i else firstRepeat? (i :: seen) is

/-- As many variants as one byte can tell apart. -/
def maxVariants : Nat := 256

namespace TypeTable

def fields (table : TypeTable) (fields : List Shape.Field) : List Field :=
  fields.map fun f => ⟨f.name, table.handle f.reference⟩

def variant (table : TypeTable) (numbered : Shape.Variant × Nat) : Except ShapeFault Variant :=
  if Shape.mixesNaming numbered.1.fields then .error (.mixedFieldNaming numbered.1.name)
  else .ok ⟨numbered.1.name, UInt8.ofNat numbered.2, table.fields numbered.1.fields⟩

/-- The variants of an enum, ordered and numbered. -/
def variants (table : TypeTable) (variants : List Shape.Variant) :
    Except ShapeFault (List Variant) :=
  if variants.isEmpty then .error .emptyEnum
  else if maxVariants < variants.length then
    .error (.unrecognized s!"{variants.length} variants exceed the one-byte discriminant")
  else
    match firstRepeat? [] (variants.filterMap Shape.Variant.index) with
    | some index => .error (.duplicateIndex index)
    | none => (Shape.ordered variants).zipIdx.mapM table.variant

def ofShape (table : TypeTable) : Shape → Except ShapeFault TypeKind
  | .record fields =>
    if Shape.mixesNaming fields then .error (.mixedFieldNaming (Shape.firstName fields))
    else .ok (.record (table.fields fields))
  | .enum variants => (table.variants variants).map .enum

/-- The kind behind a name that needs a stored shape. -/
def composite (table : TypeTable) (name : String) : TypeKind :=
  match table.shape name with
  | .error fault => .unsupported fault
  | .ok shape =>
    match table.ofShape shape with
    | .error fault => .unsupported (.malformed name fault)
    | .ok kind => kind

/-- The kind behind a category; `name` is the name that was classified. -/
def ofCategory (table : TypeTable) (name : String) : Category → TypeKind
  | .primitive kind => .primitive kind
  | .fixedBytes len => .fixedBytes len
  | .fixedArray elem len => .fixedArray (table.handle elem) len
  | .vector elem => .vector (table.handle elem)
  | .boundedVector elem bound => .boundedVector (table.handle elem) bound
  | .option elem => .option (table.handle elem)
  | .compact width => .compact width
  | .unsupported => table.composite name

/-- The descriptor of a name. A name that is itself an unknown id is unsupported. -/
def describe (table : TypeTable) (name : String) : Descriptor :=
  match table.canonical name with
  | .error fault => ⟨name, .unsupported fault⟩
  | .ok _ => ⟨name, table.ofCategory name (TypeName.classify name)⟩

@[simp] theorem name_describe (table : TypeTable) (name : String) :
    (table.describe name).name = name := by
  unfold describe
  split <;> rfl

end TypeTable

end ScaleCalls
