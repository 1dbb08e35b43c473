import ScaleCalls.Proofs.Metadata.TypeTable
import ScaleCalls.Proofs.Outcome
import ScaleCalls.Types.Resolve

/-!
# What a descriptor is made of

A handle inside a descriptor is the handle of a text: of the element name that the
described name itself spells out, or of a reference in the shape that is stored for
it. The variants of an enum carry their positions as discriminants.

## Main statements

- `TypeTable.exists_of_mem_children_describe` — where handles come from
- `TypeTable.discriminant_of_describe` — discriminants are positions
-/

namespace ScaleCalls

/-- A variant as it is numbered, whatever its fields are named. -/
def TypeTable.numbered (table : TypeTable) (variant : Shape.Variant × Nat) : Variant :=
  ⟨variant.1.name, UInt8.ofNat variant.2, table.fields variant.1.fields⟩

theorem Shape.ordered_perm (variants : List Shape.Variant) :
    (Shape.ordered variants).Perm variants := by
  have h := (List.mergeSort_perm variants.zipIdx fun a b => orderKey a ≤ orderKey b).map Prod.fst
  rwa [List.zipIdx_map_fst] at h

namespace TypeTable

variable {table : TypeTable} {name child : String}

/-- An accepted list of variants is ordered and then numbered from zero, and one byte
can tell its members apart. -/
theorem variants_eq_ok {raw : List Shape.Variant} {out : List Variant}
    (h : table.variants raw = .ok out) :
    raw.length ≤ maxVariants ∧ out = (Shape.ordered raw).zipIdx.map table.numbered := by
  unfold variants at h
  split at h
  · cases h
  · split at h
    · cases h
    · rename_i hlength
      split at h
      · cases h
      · refine ⟨Nat.le_of_not_lt hlength, eq_map_of_mapM_eq_ok ?_ h⟩
        intro numbered v hv
        unfold variant at hv
        split at hv
        · cases hv
        · cases hv
          rfl

theorem handles_fields (table : TypeTable) (fields : List Shape.Field) :
    (table.fields fields).map Field.handle =
      (fields.map Shape.Field.reference).map table.handle := by
  simp [TypeTable.fields, Function.comp_def]

theorem exists_of_mem_children_ofShape {shape : Shape} {kind : TypeKind}
    (h : table.ofShape shape = .ok kind) (hchild : child ∈ kind.children) :
    ∃ reference ∈ shape.references, child = table.handle reference := by
  cases shape with
  | record fields =>
    simp only [ofShape] at h
    split at h
    · cases h
    · cases h
      simp only [TypeKind.children, handles_fields, List.mem_map] at hchild
      obtain ⟨reference, hmem, rfl⟩ := hchild
      exact ⟨reference, by simpa [Shape.references] using hmem, rfl⟩
  | enum raw =>
    simp only [ofShape] at h
    cases hout : table.variants raw with
    | error fault => simp [hout, Except.map] at h
    | ok out =>
      rw [hout] at h
      cases h
      obtain ⟨-, rfl⟩ := variants_eq_ok hout
      simp only [TypeKind.children, List.mem_flatMap, List.mem_map] at hchild
      obtain ⟨_, ⟨⟨v, i⟩, hv, rfl⟩, field, hfield, rfl⟩ := hchild
      have hraw : v ∈ raw := (Shape.ordered_perm raw).mem_iff.1 (List.fst_mem_of_mem_zipIdx hv)
      simp only [numbered, TypeTable.fields, List.mem_map] at hfield
      obtain ⟨f, hf, rfl⟩ := hfield
      exact ⟨f.reference, List.mem_flatMap.2 ⟨v, hraw, List.mem_map_of_mem hf⟩, rfl⟩

/-- A handle in a descriptor comes from the element that the name spells out, or from
the shape that is stored under the name. -/
theorem exists_of_mem_children_describe (h : child ∈ (table.describe name).children) :
    (∃ elem, (TypeName.classify name).element? = some elem ∧ child = table.handle elem) ∨
      ∃ shape, table.shape name = .ok shape ∧
        ∃ reference ∈ shape.references, child = table.handle reference := by
  unfold describe at h
  split at h
  · simp [Descriptor.children, TypeKind.children] at h
  · simp only [Descriptor.children] at h
    cases hcategory : TypeName.classify name with
    | unsupported =>
      right
      simp only [hcategory, ofCategory, composite] at h
      split at h
      · simp [TypeKind.children] at h
      · rename_i shape hshape
        refine ⟨shape, hshape, ?_⟩
        split at h
        · simp [TypeKind.children] at h
        · rename_i kind hkind
          exact exists_of_mem_children_ofShape hkind h
    | primitive _ | fixedBytes _ | compact _ =>
      simp [hcategory, ofCategory, TypeKind.children] at h
    | fixedArray elem _ | vector elem | boundedVector elem _ | option elem =>
      left
      refine ⟨elem, rfl, ?_⟩
      simpa [hcategory, ofCategory, TypeKind.children] using h

theorem element?_ofShape {shape : Shape} {kind : TypeKind} (h : table.ofShape shape = .ok kind) :
    kind.element? = none := by
  cases shape with
  | record fields =>
    simp only [ofShape] at h
    split at h <;> cases h
    rfl
  | enum variants =>
    simp only [ofShape] at h
    cases hvariants : table.variants variants with
    | error fault => simp [hvariants, Except.map] at h
    | ok out =>
      rw [hvariants] at h
      cases h
      rfl

theorem element?_composite (table : TypeTable) (name : String) :
    (table.composite name).element? = none := by
  unfold composite
  split
  · rfl
  · split
    · rfl
    · rename_i hkind
      exact element?_ofShape hkind

/-- Only a name that is read as a container has a container behind it. -/
theorem exists_of_element?_describe (h : (table.describe name).kind.element? = some child) :
    ∃ elem, (TypeName.classify name).element? = some elem ∧ child = table.handle elem := by
  unfold describe at h
  split at h
  · cases h
  · cases hcategory : TypeName.classify name with
    | unsupported =>
      simp only [hcategory, ofCategory, element?_composite] at h
      cases h
    | primitive _ | fixedBytes _ | compact _ =>
      simp only [hcategory, ofCategory] at h
      cases h
    | fixedArray elem _ | vector elem | boundedVector elem _ | option elem =>
      simp only [hcategory, ofCategory] at h
      exact ⟨elem, rfl, (Option.some.inj h).symm⟩

/-- What is read as a container has a container behind it, unless it is an unknown id. -/
theorem element?_describe_of_canonical {elem canonical : String}
    (hcanonical : table.canonical name = .ok canonical)
    (h : (TypeName.classify name).element? = some elem) :
    (table.describe name).kind.element? = some (table.handle elem) := by
  unfold describe
  rw [hcanonical]
  dsimp only
  cases hcategory : TypeName.classify name with
  | primitive _ | fixedBytes _ | compact _ | unsupported =>
    rw [hcategory] at h
    cases h
  | fixedArray found _ | vector found | boundedVector found _ | option found =>
    rw [hcategory] at h
    cases h
    rfl

theorem exists_of_kind_describe {variants : List Variant}
    (h : (table.describe name).kind = .enum variants) :
    ∃ raw, table.variants raw = .ok variants := by
  unfold describe at h
  split at h
  · cases h
  · cases hcategory : TypeName.classify name with
    | unsupported =>
      simp only [hcategory, ofCategory, composite] at h
      split at h
      · cases h
      · rename_i shape hshape
        split at h
        · cases h
        · rename_i kind hkind
          subst h
          cases shape with
          | record fields =>
            simp only [ofShape] at hkind
            split at hkind <;> cases hkind
          | enum raw =>
            simp only [ofShape] at hkind
            cases hout : table.variants raw with
            | error fault => simp [hout, Except.map] at hkind
            | ok out =>
              rw [hout] at hkind
              cases hkind
              exact ⟨raw, hout⟩
    | primitive _ | fixedBytes _ | compact _ | fixedArray _ _ | vector _
      | boundedVector _ _ | option _ => simp [hcategory, ofCategory] at h

/-- The discriminant of a variant is its position. -/
theorem discriminant_of_describe {variants : List Variant}
    (h : (table.describe name).kind = .enum variants) {i : Nat} {v : Variant}
    (hv : variants[i]? = some v) : v.discriminant.toNat = i := by
  obtain ⟨raw, hraw⟩ := exists_of_kind_describe h
  obtain ⟨hlength, rfl⟩ := variants_eq_ok hraw
  rw [List.getElem?_map, Option.map_eq_some_iff] at hv
  obtain ⟨⟨w, j⟩, hw, rfl⟩ := hv
  rw [List.getElem?_zipIdx] at hw
  obtain ⟨w', hw', heq⟩ := Option.map_eq_some_iff.1 hw
  cases heq
  obtain ⟨hi, -⟩ := List.getElem?_eq_some_iff.1 hw'
  rw [(Shape.ordered_perm raw).length_eq] at hi
  have : i < 256 := Nat.lt_of_lt_of_le hi hlength
  simp [numbered, Nat.mod_eq_of_lt this]

end TypeTable

end ScaleCalls
