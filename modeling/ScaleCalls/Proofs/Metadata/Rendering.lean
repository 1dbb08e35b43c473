import ScaleCalls.Proofs.Json.Plain

/-!
# What a rendering keeps of a shape

The value that describes a shape can always be read, and what is read from it is a shape that
the vocabulary has words for: the keys of an object are different, a key that names a position
gives a field without a name, and an index stands alone. So a shape is read back as itself
exactly if the vocabulary has words for it, and no other shape survives.

## Main definitions

- `Shape.NamesPosition` — names that are taken for a position

## Main statements

- `Shape.exists_ofJson_toJson` — what is read back is expressible
- `Shape.ofJson_toJson_iff` — the shapes that are read back as themselves
-/

namespace ScaleCalls.Shape

/-- A name that is digits, or nothing, behind an optional underscore. -/
def NamesPosition (name : String) : Prop :=
  ∃ digits : List Char, (∀ c ∈ digits, c.isDigit) ∧
    (name.toList = digits ∨ name.toList = '_' :: digits)

theorem isPositionalKey_iff {name : String} : isPositionalKey name ↔ NamesPosition name := by
  rw [isPositionalKey, List.all_eq_true]
  constructor
  · intro h
    refine ⟨_, h, ?_⟩
    unfold withoutUnderscore
    split
    · exact .inr ‹_›
    · exact .inl rfl
  · rintro ⟨digits, hdigits, hname | hname⟩
    · rw [hname]
      unfold withoutUnderscore
      split
      · exact fun c hc => hdigits c (List.mem_cons_of_mem _ hc)
      · exact hdigits
    · rw [hname, withoutUnderscore]
      exact hdigits

/-- A field that is read from a member with this key. -/
def KeyedBy (member : String × Json) (field : Field) : Prop :=
  field.name = if isPositionalKey member.1 then none else some member.1

theorem WellNamed.of_forall₂ {members : Json.Members} {fields : List Field}
    (h : List.Forall₂ KeyedBy members fields) (hkeys : (members.map Prod.fst).Nodup) :
    WellNamed fields := by
  have hnames : ∀ {members : Json.Members} {fields : List Field},
      List.Forall₂ KeyedBy members fields → (fields.filterMap Field.name).Sublist
        (members.map Prod.fst) := by
    intro members fields h
    induction h with
    | nil => exact .slnil
    | @cons member field _ _ hfield _ ih =>
      rw [KeyedBy] at hfield
      split at hfield
      · rw [List.filterMap_cons_none hfield]
        exact ih.cons _
      · rw [List.filterMap_cons_some hfield]
        exact ih.cons_cons _
  refine ⟨hkeys.sublist (hnames h), fun f hf name hname => ?_⟩
  obtain ⟨member, -, hfield⟩ := exists_of_mem_forall₂ h.flip hf
  change f.name = if isPositionalKey member.1 then none else some member.1 at hfield
  rw [hname] at hfield
  split at hfield
  · cases hfield
  · rename_i hkey
    cases hfield
    simpa using hkey

/-- Members with references for values are fields that can stand in one object. -/
theorem exists_fieldsOfMembers {members : Json.Members} (hkeys : (members.map Prod.fst).Nodup)
    (hvalues : ∀ m ∈ members, ∃ reference, m.2 = .string reference) :
    ∃ fields, fieldsOfMembers members = .ok fields ∧ WellNamed fields := by
  have hread : ∀ m ∈ members, ∃ field, fieldOfMember m = .ok field ∧ KeyedBy m field := by
    rintro ⟨key, value⟩ hm
    obtain ⟨reference, rfl⟩ := hvalues _ hm
    exact ⟨_, rfl, rfl⟩
  obtain ⟨fields, hfields, hkeyed⟩ := exists_mapM_eq_ok hread
  exact ⟨fields, hfields, .of_forall₂ hkeyed hkeys⟩

theorem exists_reference_of_mem_fieldsToPairs {fields : List Field} {position : Nat}
    {m : String × Json} (h : m ∈ fieldsToPairs position fields) :
    ∃ reference, m.2 = .string reference := by
  induction fields generalizing position with
  | nil => cases h
  | cons field fields ih =>
    obtain rfl | h := List.mem_cons.1 h
    · exact ⟨_, rfl⟩
    · exact ih h

/-- Fields that are written as an object are read back as fields that can stand in one. -/
theorem exists_fieldsOfMembers_ofPairs (fields : List Field) :
    ∃ kept, fieldsOfMembers (Json.Members.ofPairs (fieldsToPairs 0 fields)) = .ok kept ∧
      WellNamed kept :=
  exists_fieldsOfMembers (Json.Members.nodup_ofPairs _) fun _ hm =>
    exists_reference_of_mem_fieldsToPairs (Json.Members.mem_of_mem_ofPairs hm)

theorem wellNamed_of_all_isNone {fields : List Field} (h : fields.all fun f => f.name.isNone) :
    WellNamed fields := by
  have hnone : ∀ f ∈ fields, f.name = none := by simpa using h
  refine ⟨?_, fun f hf name hname => ?_⟩
  · rw [List.filterMap_eq_nil_iff.2 hnone]
    exact List.nodup_nil
  · rw [hnone f hf] at hname
    cases hname

/-- A variant that has words in the vocabulary. -/
def Variant.Expressible (v : Variant) : Prop :=
  WellNamed v.fields ∧ (v.index = none ∨ v.fields = [])

/-- Whatever a variant is, it is read back under its name as one that has words. The cases
are the forms in which a variant is written. -/
theorem exists_variantOfMember (v : Variant) :
    ∃ kept, variantOfMember (v.name, variantToJson v) = .ok kept ∧
      kept.name = v.name ∧ kept.Expressible := by
  have hnone : WellNamed [] := wellNamed_of_all_isNone rfl
  unfold variantToJson
  split
  · split
    · rename_i index _
      simp only [variantOfMember, index?_toNat]
      exact ⟨_, rfl, rfl, hnone, .inr rfl⟩
    · exact ⟨_, rfl, rfl, hnone, .inr rfl⟩
  · exact ⟨_, rfl, rfl, wellNamed_of_all_isNone rfl, .inl rfl⟩
  · rename_i fields _ _
    split
    · rename_i hall
      refine ⟨⟨v.name, none, v.fields⟩, ?_, rfl, wellNamed_of_all_isNone hall, .inl rfl⟩
      simp only [variantOfMember, mapM_fieldOfItem hall]
      rfl
    · obtain ⟨kept, hkept, hnamed⟩ := exists_fieldsOfMembers_ofPairs v.fields
      refine ⟨⟨v.name, none, kept⟩, ?_, rfl, hnamed, .inl rfl⟩
      simp only [variantOfMember, fieldsToJson, hkept]
      rfl

/-- What describes a shape can always be read, as a shape that the vocabulary has words for. -/
theorem exists_ofJson_toJson (shape : Shape) :
    ∃ kept, ofJson shape.toJson = .ok kept ∧ kept.Expressible := by
  cases shape with
  | record fields =>
    obtain ⟨kept, hkept, hnamed⟩ := exists_fieldsOfMembers_ofPairs fields
    refine ⟨record kept, ?_, hnamed⟩
    change (do
      return record (← fieldsOfMembers (Json.Members.ofPairs (fieldsToPairs 0 fields)))) = _
    rw [hkept]
    rfl
  | enum variants =>
    let pairs := variants.map fun v => (v.name, variantToJson v)
    have hmember : ∀ m ∈ Json.Members.ofPairs pairs,
        ∃ v, variantOfMember m = .ok v ∧ v.name = m.1 ∧ v.Expressible := by
      intro m hm
      obtain ⟨v, -, rfl⟩ := List.mem_map.1 (Json.Members.mem_of_mem_ofPairs hm)
      exact exists_variantOfMember v
    obtain ⟨kept, hkept, hread⟩ := exists_mapM_eq_ok hmember
    refine ⟨enum kept, ?_, ?_, fun v hv => ?_⟩
    · change (do return enum (← (Json.Members.ofPairs pairs).mapM variantOfMember)) = _
      rw [hkept]
      rfl
    · -- the names that are read are the keys of the object
      have hkeys := Json.Members.nodup_ofPairs pairs
      have hnames : kept.map Variant.name = (Json.Members.ofPairs pairs).map Prod.fst := by
        rw [← List.forall₂_eq_eq_eq, List.forall₂_map_left_iff, List.forall₂_map_right_iff]
        exact hread.flip.imp fun _ _ h => h.1
      rwa [hnames]
    · obtain ⟨m, -, -, hexpressible⟩ := exists_of_mem_forall₂ hread.flip hv
      exact hexpressible

/-- A shape is read back from the value that describes it exactly if the vocabulary has words
for it: variants have different names, none of them has fields beside an explicit index, and
fields that stand in one struct or variant have different names, none of which names a
position. What is read back from any other shape is a shape that has words. -/
theorem ofJson_toJson_iff (shape : Shape) :
    (ofJson shape.toJson = .ok shape ↔ shape.Expressible) ∧
    (∃ kept, ofJson shape.toJson = .ok kept ∧ kept.Expressible) ∧
    ∀ name, isPositionalKey name ↔ NamesPosition name := by
  obtain ⟨kept, hkept, hexpressible⟩ := exists_ofJson_toJson shape
  refine ⟨⟨fun h => ?_, ofJson_toJson⟩, ⟨kept, hkept, hexpressible⟩, fun name =>
    isPositionalKey_iff⟩
  obtain rfl := Except.ok.inj (hkept.symm.trans h)
  exact hexpressible

/-- A name of a position is lost, and of two fields with one name the last is kept. -/
example : ofJson (record [⟨some "_0", "u8"⟩, ⟨some "x", "u16"⟩, ⟨some "x", "u32"⟩]).toJson =
    .ok (record [⟨none, "u8"⟩, ⟨some "x", "u32"⟩]) := rfl

end ScaleCalls.Shape
