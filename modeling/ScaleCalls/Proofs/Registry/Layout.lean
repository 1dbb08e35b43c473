import ScaleCalls.Proofs.Metadata.Reference
import ScaleCalls.Proofs.Metadata.Shape
import ScaleCalls.Registry.Flatten

/-!
# The layouts of registry types

A type of a registry is referred to by its number. In the flat table the number leads
to a name, and the name to the first type with a layout that goes by it. A type goes by
the name that it gets and also by its path, so a type that is named by its path meets
every other type with this path.

## Main definitions

- `Registry.Positional` — the numbers of the types are their positions
- `Registry.layout?` — the layout of a type in the flat table
- `Registry.layoutNamed?` — the layout that a name leads to

## Main statements

- `shape_ofSnapshot` — what the flat table holds under a name
- `layout_kept_iff` — the types that keep their own layout
-/

namespace ScaleCalls

namespace Registry

/-- The number that is written beside a type is its position. -/
def Positional (registry : Registry) : Prop :=
  ∀ (i : Nat) (h : i < registry.types.size), registry.types[i].id.toNat = i

instance (registry : Registry) : Decidable registry.Positional :=
  Nat.decidableBallLT _ _

/-- Variants and fields that stand beside each other have different names, and no field
is named like a position. -/
def Definition.WellNamed : Definition → Prop
  | .composite fields => Shape.WellNamed (fields.map Field.shape)
  | .variant variants => (variants.map Variant.name).Nodup ∧
      ∀ v ∈ variants, Shape.WellNamed (v.fields.map Field.shape)
  | _ => True

instance : (definition : Definition) → Decidable definition.WellNamed
  | .composite fields => inferInstanceAs (Decidable (Shape.WellNamed (fields.map Field.shape)))
  | .variant variants => inferInstanceAs (Decidable ((variants.map Variant.name).Nodup ∧
      ∀ v ∈ variants, Shape.WellNamed (v.fields.map Field.shape)))
  | .sequence _ | .array _ _ | .tuple _ | .scalar _ | .compact _ | .bitSequence =>
    .isTrue trivial

/-- The layout of a type in the flat table, where it has one. -/
def layout? (registry : Registry) (entry : Entry) : Option Shape :=
  shape? (registry.nameAll.get entry.id) entry

/-- The texts that a type goes by in the flat table; the first one is its name. -/
def texts (registry : Registry) (entry : Entry) : List String :=
  TypeTable.keys (flatEntry registry.nameAll entry)

/-- The layout of the first type that goes by a text and has a layout. -/
def layoutNamed? (registry : Registry) (text : String) : Option Shape :=
  (registry.types.toList.filter fun e => text ∈ registry.texts e).findSome? registry.layout?

variable {registry : Registry} {entry : Entry} {number : UInt32} {layout : Shape}
  {chain specName : String} {specVersion : UInt32} {groups : List CallGroup}

theorem definition_flatEntry (entry : Entry) :
    (flatEntry registry.nameAll entry).definition =
      (registry.layout? entry).map Shape.toJson := by
  simp only [flatEntry, layout?]

theorem mem_of_get? (h : registry.get? number = some entry) : entry ∈ registry.types.toList :=
  Array.mem_toList_iff.2 (Array.mem_of_getElem? h)

theorem Positional.get?_id (hpos : registry.Positional) (h : entry ∈ registry.types.toList) :
    registry.get? entry.id = some entry := by
  obtain ⟨i, hi, rfl⟩ := Array.mem_iff_getElem.1 (Array.mem_toList_iff.1 h)
  rw [get?, hpos i hi, Array.getElem?_eq_getElem hi]

theorem Positional.id_eq (hpos : registry.Positional) (h : registry.get? number = some entry) :
    entry.id = number := by
  obtain ⟨hi, rfl⟩ := Array.getElem?_eq_some_iff.1 h
  exact UInt32.toNat_inj.1 (hpos _ hi)

theorem byId_ofSnapshot (hpos : registry.Positional) (h : registry.get? number = some entry) :
    (TypeTable.ofSnapshot (registry.snapshot chain specName specVersion groups)).byId[number]? =
      some (flatEntry registry.nameAll entry) := by
  rw [TypeTable.byId_ofSnapshot, snapshot]
  cases hfind : ((registry.types.toList.map (flatEntry registry.nameAll)).reverse.find?
      fun e => e.id == number) with
  | none =>
    have hmem : flatEntry registry.nameAll entry ∈
        (registry.types.toList.map (flatEntry registry.nameAll)).reverse :=
      List.mem_reverse.2 (List.mem_map_of_mem (mem_of_get? h))
    have hother := List.find?_eq_none.1 hfind _ hmem
    exact absurd (beq_iff_eq.2 (hpos.id_eq h)) hother
  | some found =>
    obtain ⟨other, hother, rfl⟩ := List.mem_map.1
      (List.mem_reverse.1 (List.mem_of_find?_eq_some hfind))
    have hid : other.id = number := by simpa [flatEntry] using List.find?_some hfind
    have hget := hpos.get?_id hother
    rw [hid, h] at hget
    rw [Option.some.inj hget]

theorem expressible_of_layout? (hnames : entry.definition.WellNamed)
    (h : registry.layout? entry = some layout) : layout.Expressible := by
  rw [layout?, shape?] at h
  split at h
  · cases h
  · split at h
    · rename_i fields heq
      rw [heq] at hnames
      cases h
      exact hnames
    · rename_i variants heq
      rw [heq] at hnames
      cases h
      have hperm : (ordered variants).Perm variants := List.mergeSort_perm _ _
      refine ⟨?_, fun v hv => ?_⟩
      · rw [List.map_map]
        exact (hperm.map Variant.name).nodup_iff.2 hnames.1
      · obtain ⟨w, hw, rfl⟩ := List.mem_map.1 hv
        exact ⟨hnames.2 w (hperm.mem_iff.1 hw), Or.inl rfl⟩
    · cases h

theorem filter_types (text : String) :
    ((registry.snapshot chain specName specVersion groups).types.filter
      fun e => text ∈ TypeTable.keys e) =
        (registry.types.toList.filter fun e => text ∈ registry.texts e).map
          (flatEntry registry.nameAll) := by
  rw [snapshot, List.filter_map]
  refine congrArg _ (List.filter_congr fun e _ => ?_)
  rw [Function.comp_apply, decide_eq_decide, texts]

/-- Under a text the flat table holds the layout of the first type that goes by it and
has one. -/
theorem shape_ofSnapshot {text : String}
    (hnames : ∀ e ∈ registry.types, e.definition.WellNamed)
    (h : registry.layoutNamed? text = some layout) :
    (TypeTable.ofSnapshot (registry.snapshot chain specName specVersion groups)).shape text =
      .ok layout := by
  obtain ⟨before, entry, after, hsplit, hlayout, hbefore⟩ := List.findSome?_eq_some_iff.1 h
  have hentry : entry ∈ registry.types := by
    have hmem : entry ∈ registry.types.toList.filter fun e => text ∈ registry.texts e := by
      rw [hsplit]
      exact List.mem_append_right _ List.mem_cons_self
    exact Array.mem_toList_iff.1 (List.mem_filter.1 hmem).1
  have hfirst : (((registry.types.toList.filter fun e => text ∈ registry.texts e).map
      (flatEntry registry.nameAll)).find? fun e => e.definition.isSome) =
        some (flatEntry registry.nameAll entry) := by
    rw [hsplit, List.find?_map, Option.map_eq_some_iff]
    refine ⟨entry, List.find?_eq_some_iff_append.2 ⟨?_, before, after, rfl, fun e he => ?_⟩, rfl⟩
    · rw [Function.comp_apply, definition_flatEntry, hlayout, Option.map_some, Option.isSome_some]
    · rw [Function.comp_apply, definition_flatEntry, hbefore e he, Option.map_none,
        Option.isSome_none, Bool.not_false]
  have hname : (TypeTable.ofSnapshot
      (registry.snapshot chain specName specVersion groups)).byName[text]? =
        some (flatEntry registry.nameAll entry) := by
    rw [TypeTable.byName_ofSnapshot, filter_types]
    exact TypeTable.preferred_of_find? hfirst
  have hdefinition : (flatEntry registry.nameAll entry).definition = some layout.toJson := by
    rw [definition_flatEntry, hlayout, Option.map_some]
  rw [TypeTable.shape, hname]
  simp only [hdefinition,
    Shape.ofJson_toJson (expressible_of_layout? (hnames entry hentry) hlayout)]

theorem isSome_layoutNamed? {text : String} (hentry : entry ∈ registry.types.toList)
    (htext : text ∈ registry.texts entry) (h : registry.layout? entry = some layout) :
    (registry.layoutNamed? text).isSome :=
  List.findSome?_isSome_iff.2
    ⟨entry, List.mem_filter.2 ⟨hentry, decide_eq_true htext⟩, by rw [h]; rfl⟩

/-- The number of a type leads to its name, and what is written as its layout is read
back. The name leads to its own layout exactly when the first type that goes by this name
and has a layout has the same one. -/
theorem layout_kept_iff (hpos : registry.Positional)
    (hnames : ∀ e ∈ registry.types, e.definition.WellNamed)
    (hentry : registry.get? number = some entry) (hlayout : registry.layout? entry = some layout)
    (chain specName : String) (specVersion : UInt32) (groups : List CallGroup) :
    let table := TypeTable.ofSnapshot (registry.snapshot chain specName specVersion groups)
    let name := (flatEntry registry.nameAll entry).canonicalName
    table.canonical (idReference number) = .ok name ∧
      Shape.ofJson layout.toJson = .ok layout ∧
      (table.shape name = .ok layout ↔ registry.layoutNamed? name = some layout) := by
  intro table name
  have hmem := mem_of_get? hentry
  have hexpressible : layout.Expressible :=
    expressible_of_layout? (hnames entry (Array.mem_toList_iff.1 hmem)) hlayout
  refine ⟨TypeTable.canonical_idReference (byId_ofSnapshot hpos hentry),
    Shape.ofJson_toJson hexpressible, fun hshape => ?_, shape_ofSnapshot hnames⟩
  -- the name leads to some layout, and the table holds this one under it
  have htext : name ∈ registry.texts entry := List.mem_cons_self
  obtain ⟨found, hfound⟩ := Option.isSome_iff_exists.1 (isSome_layoutNamed? hmem htext hlayout)
  have hheld : table.shape name = .ok found := shape_ofSnapshot hnames hfound
  rw [hshape] at hheld
  rw [hfound, Except.ok.inj hheld]

/-- The layout of a pair of values of one type. -/
def pairOf (number : UInt32) : Definition :=
  .composite [⟨some "a", number⟩, ⟨some "b", number⟩]

/-- Two types with one path. The first one is named by the last segment; the second one
is named by the path, under which the first one is met. -/
def pairs : Registry :=
  ⟨#[⟨0, [], [], .scalar .u8⟩, ⟨1, [], [], .scalar .u16⟩,
    ⟨2, ["pallet", "Pair"], [⟨"T", some 0⟩], pairOf 0⟩,
    ⟨3, ["pallet", "Pair"], [⟨"T", some 1⟩], pairOf 1⟩]⟩

theorem layout_lost_pairs :
    let table := TypeTable.ofSnapshot (pairs.snapshot "" "" 0 [])
    let bytes : Shape := .record [⟨some "a", "Lookup0"⟩, ⟨some "b", "Lookup0"⟩]
    let words : Shape := .record [⟨some "a", "Lookup1"⟩, ⟨some "b", "Lookup1"⟩]
    pairs.Positional ∧ (∀ e ∈ pairs.types, e.definition.WellNamed) ∧
      table.canonical (idReference 2) = .ok "Pair" ∧ table.shape "Pair" = .ok bytes ∧
      table.canonical (idReference 3) = .ok "pallet::Pair" ∧
      table.shape "pallet::Pair" ≠ .ok words := by
  intro table bytes words
  have hpos : pairs.Positional := by decide
  have hnames : ∀ e ∈ pairs.types, e.definition.WellNamed := by decide
  have hbytes : pairs.layout? pairs.types[2] = some bytes := by decide +kernel
  have hwords : pairs.layout? pairs.types[3] = some words := by decide +kernel
  have hnumber2 : pairs.get? 2 = some pairs.types[2] := rfl
  have hnumber3 : pairs.get? 3 = some pairs.types[3] := rfl
  have hname2 : (flatEntry pairs.nameAll pairs.types[2]).canonicalName = "Pair" := by
    decide +kernel
  have hname3 : (flatEntry pairs.nameAll pairs.types[3]).canonicalName = "pallet::Pair" := by
    decide +kernel
  obtain ⟨hcanonical2, -, hkept2⟩ := layout_kept_iff hpos hnames hnumber2 hbytes "" "" 0 []
  obtain ⟨hcanonical3, -, hkept3⟩ := layout_kept_iff hpos hnames hnumber3 hwords "" "" 0 []
  rw [hname2] at hcanonical2 hkept2
  rw [hname3] at hcanonical3 hkept3
  refine ⟨hpos, hnames, hcanonical2, hkept2.2 (by decide +kernel), hcanonical3, fun h => ?_⟩
  exact absurd (hkept3.1 h) (by decide +kernel)

end Registry

end ScaleCalls
