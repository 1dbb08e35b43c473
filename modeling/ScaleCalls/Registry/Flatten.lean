import ScaleCalls.Registry.Names

/-!
# From a registry to a snapshot

The flat type table of a registry, and the calls of its groups. Types with a name
that is understood by itself carry no definition; all others are described by the
vocabulary of `Shape`, with references by number. Variants and calls stand in the
order of their indices.

## Main definitions

- `Registry.shape?` — the shape of a type that needs one
- `Registry.snapshot` — the snapshot of a registry
-/

namespace ScaleCalls.Registry

/-- A group of calls and the number of the enum that describes them. -/
structure CallGroup where
  name : String
  index : UInt8
  calls : Option UInt32
  deriving Repr, DecidableEq

def Field.shape (field : Field) : Shape.Field := ⟨field.name, idReference field.type⟩

def ordered (variants : List Variant) : List Variant :=
  variants.mergeSort fun a b => a.index ≤ b.index

/-- The shape of a type, unless its name says enough or it adds nothing to its only
field. The variants count from zero in their order. -/
def shape? (name : String) (entry : Entry) : Option Shape :=
  if TypeName.classify name ≠ .unsupported ∨ entry.wrapped?.isSome then none
  else
    match entry.definition with
    | .composite fields => some (.record (fields.map Field.shape))
    | .variant variants =>
      some (.enum ((ordered variants).map fun v => ⟨v.name, none, v.fields.map Field.shape⟩))
    | _ => none

def flatEntry (naming : Naming) (entry : Entry) : TypeEntry :=
  let name := naming.get entry.id
  ⟨entry.id, name, entry.path, (shape? name entry).map Shape.toJson⟩

def argument (field : Field × Nat) : Argument :=
  ⟨field.1.name.getD s!"_{field.2}", idReference field.1.type⟩

/-- The calls that an enum describes; no other type describes any. -/
def callsOf (entry : Entry) : List Call :=
  match entry.definition with
  | .variant variants =>
    (ordered variants).map fun v => ⟨v.name, v.index, v.fields.zipIdx.map argument⟩
  | _ => []

/-- The group of a snapshot for a group of calls. -/
def pallet (registry : Registry) (group : CallGroup) : Pallet :=
  ⟨group.name, group.index, ((group.calls.bind registry.get?).map callsOf).getD []⟩

/-- The snapshot of a registry and its groups of calls. -/
def snapshot (registry : Registry) (chain specName : String) (specVersion : UInt32)
    (groups : List CallGroup) : Snapshot :=
  let naming := registry.nameAll
  { chain
    specName
    specVersion
    pallets := groups.map registry.pallet
    types := registry.types.toList.map (flatEntry naming) }

end ScaleCalls.Registry
