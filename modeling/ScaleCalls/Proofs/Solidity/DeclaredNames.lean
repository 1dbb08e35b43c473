import ScaleCalls.Proofs.Solidity.Declarations
import ScaleCalls.Proofs.Solidity.Usable

/-!
# The names in the declarations of a type

The identifier of a type starts with a capital letter or holds an underscore, also where it is
made of the identifier of an element or of an unresolved handle. The other names in its
declarations come from scopes that are claimed for the names of fields and variants, but for
the few that are the same in all units.

## Main definitions

- `Declaration.localNames`, `Declaration.tagMembers` — the names in a declaration
- `IsTypeName` — what the identifiers of types have in common

## Main statements

- `Lowering.mem_localNames_iff` — where the names in the declarations of a type come from
- `Lowering.usable_of_mem_localNames` — all of them can be used
- `TypeNames.isTypeName_of_get?_nameAll` — so can the identifiers of types
-/

namespace ScaleCalls.Solidity

/-- The names of members of structs, of constructors and of parameters. -/
def Declaration.localNames : Declaration → List String
  | .tagEnum _ _ => []
  | .record _ members => members.map Member.name
  | .codec c => c.body.params.map Param.name ++
      c.constructors.flatMap fun k => k.name :: k.params.map Param.name

def Declaration.tagMembers : Declaration → List String
  | .tagEnum _ members => members
  | .record _ _ | .codec _ => []

namespace Lowering

variable {lowering : Lowering} {d : Descriptor} {x : Declaration} {name : String}
  {variants : List Variant} {fields : List Field}

/-! ## Members, constructors and parameters -/

theorem mem_names_members {params : List Param} :
    name ∈ (members params).map Member.name ↔
      name ∈ params.map Param.name ∨ params = [] ∧ name = "_empty" := by
  cases params with
  | nil => simp [members]
  | cons p params => simp [members]

theorem mem_names_constructors :
    name ∈ (lowering.constructors variants).flatMap
        (fun k => k.name :: k.params.map Param.name) ↔
      name ∈ constructorNames variants ∨
        ∃ v ∈ variants, name ∈ (lowering.fields v.fields).map Param.name := by
  simp only [List.mem_flatMap, List.mem_cons]
  constructor
  · rintro ⟨k, hk, rfl | hparam⟩
    · exact .inl (names_constructors lowering variants ▸ List.mem_map_of_mem hk)
    · obtain ⟨v, hv, _, _, rfl⟩ :=
        exists_of_mem_forall₂ (forall₂_constructors lowering variants) hk
      exact .inr ⟨v, hv, hparam⟩
  · rintro (hname | ⟨v, hv, hparam⟩)
    · rw [← names_constructors lowering] at hname
      obtain ⟨k, hk, rfl⟩ := List.mem_map.1 hname
      exact ⟨k, hk, .inl rfl⟩
    · obtain ⟨i, hi⟩ := List.mem_iff_getElem?.1 hv
      obtain ⟨_, _, hconstructor⟩ := getElem?_constructors lowering hi
      exact ⟨_, List.mem_of_getElem? hconstructor, .inr hparam⟩

/-- The names in the declarations of a type: those of fields and variants as their scopes give
them out, and those that every struct without fields, enum or option has. -/
theorem mem_localNames_iff :
    name ∈ (lowering.declarations d).flatMap Declaration.localNames ↔
      match d.kind with
      | .record fields =>
        name ∈ (lowering.fields fields).map Param.name ∨
          lowering.fields fields = [] ∧ name = "_empty"
      | .enum variants =>
        (name = "tag" ∨ name = "payload") ∨ name ∈ constructorNames variants ∨
          ∃ v ∈ variants, name ∈ (lowering.fields v.fields).map Param.name
      | .option _ => name = "isSome" ∨ name = "value"
      | _ => False := by
  unfold declarations
  cases d.kind with
  | record fields =>
    simp only [codec, List.flatMap_cons, List.flatMap_nil, Declaration.localNames,
      CodecBody.params, List.append_nil, List.mem_append, mem_names_members]
    exact or_iff_left_of_imp .inl
  | enum variants =>
    simp only [codec, List.flatMap_cons, List.flatMap_nil, Declaration.localNames,
      CodecBody.params, List.map_cons, List.map_nil, List.nil_append, List.append_nil,
      List.mem_append, List.mem_cons, List.not_mem_nil, or_false, mem_names_constructors]
  | option elem => simp [codec, Declaration.localNames, CodecBody.params]
  | _ => simp [codec, Declaration.localNames, CodecBody.params]

theorem usable_fieldBase (field : Field × Nat) : Usable (fieldBase field) := by
  rw [fieldBase]
  split
  · exact usable_camel _
  · exact usable_positional _

theorem usable_of_mem_fields (h : name ∈ (lowering.fields fields).map Param.name) :
    Usable name := by
  rw [names_fields] at h
  refine usable_of_mem_claimAll (fun base hbase => ?_) h
  obtain ⟨field, -, rfl⟩ := List.mem_map.1 hbase
  exact usable_fieldBase field

theorem usable_of_mem_constructorNames (h : name ∈ constructorNames variants) : Usable name := by
  refine usable_of_mem_claimAll (fun base hbase => ?_) h
  obtain ⟨v, -, rfl⟩ := List.mem_map.1 hbase
  exact usable_camel v.name

theorem usable_of_mem_tagMembers (h : name ∈ tagMembers variants) : Usable name := by
  refine usable_of_mem_claimAll (fun base hbase => ?_) h
  obtain ⟨v, -, rfl⟩ := List.mem_map.1 hbase
  exact usable_pascal v.name

theorem marked_of_mem_tagMembers (h : name ∈ tagMembers variants) : Marked name := by
  refine marked_of_mem_claimAll (fun base hbase => ?_) h
  obtain ⟨v, -, rfl⟩ := List.mem_map.1 hbase
  exact marked_pascal v.name

theorem exists_of_mem_tagMembers (hx : x ∈ lowering.declarations d) (h : name ∈ x.tagMembers) :
    ∃ variants, name ∈ tagMembers variants := by
  cases x with
  | tagEnum tag members =>
    obtain ⟨variants, -, -, rfl⟩ := eq_of_tagEnum hx
    exact ⟨variants, h⟩
  | record _ _ | codec _ => cases h

theorem usable_of_mem_localNames
    (h : name ∈ (lowering.declarations d).flatMap Declaration.localNames) : Usable name := by
  rw [mem_localNames_iff] at h
  have hfixed : ∀ fixed : String, (isIdentifier fixed && !isReserved fixed) → Usable fixed := by
    intro fixed h
    simpa [usable_iff] using h
  cases hkind : d.kind with
  | record fields =>
    rw [hkind] at h
    obtain h | ⟨-, rfl⟩ := h
    · exact usable_of_mem_fields h
    · exact hfixed _ (by decide +kernel)
  | enum variants =>
    rw [hkind] at h
    obtain (rfl | rfl) | h | ⟨v, -, h⟩ := h
    · exact hfixed _ (by decide +kernel)
    · exact hfixed _ (by decide +kernel)
    · exact usable_of_mem_constructorNames h
    · exact usable_of_mem_fields h
  | option elem =>
    rw [hkind] at h
    obtain rfl | rfl := h
    · exact hfixed _ (by decide +kernel)
    · exact hfixed _ (by decide +kernel)
  | _ =>
    rw [hkind] at h
    cases h

end Lowering

/-! ## Identifiers of types -/

/-- The identifier of a type: an identifier with a capital letter or an underscore. -/
structure IsTypeName (ident : String) : Prop where
  isIdentifier : isIdentifier ident
  marked : Marked ident

variable {s t word ident : String} {d : Descriptor} {catalog : Catalog}

theorem IsTypeName.usable (h : IsTypeName s) : Usable s :=
  usable_of_marked h.isIdentifier h.marked

theorem IsTypeName.append (h : IsTypeName s) (ht : t.toList.all isIdentifierChar) :
    IsTypeName (s ++ t) :=
  ⟨isIdentifier_append h.isIdentifier ht, h.marked.append_right t⟩

theorem isTypeName_pascal (s : String) : IsTypeName (pascal s) :=
  ⟨isIdentifier_pascal s, marked_pascal s⟩

theorem IsTypeName.nameFor (scope : Scope) (h : IsTypeName s) : IsTypeName (scope.nameFor s) :=
  ⟨(usable_iff.1 (usable_nameFor scope h.usable)).1, marked_nameFor scope h.marked⟩

theorem IsTypeName.all_isIdentifierChar (h : IsTypeName s) : s.toList.all isIdentifierChar :=
  List.all_eq_true.2 fun _ hc => isIdentifierChar_of_isIdentifier h.isIdentifier hc

theorem all_isIdentifierChar_toString (n : Nat) : (toString n).toList.all isIdentifierChar := by
  simpa [toString] using all_isIdentifierChar_toDigits n

theorem all_isIdentifierChar_append (hs : s.toList.all isIdentifierChar)
    (ht : t.toList.all isIdentifierChar) : (s ++ t).toList.all isIdentifierChar := by
  rw [String.toList_append, List.all_append, hs, ht]
  rfl

/-- A container starts with a word for its kind, whatever the word for its element is. -/
theorem isTypeName_baseName (d : Descriptor) (hword : word.toList.all isIdentifierChar) :
    IsTypeName (baseName d word) := by
  have hcapital : ∀ (first : String) (c : Char), c.isUpper → StartsWith c first →
      Solidity.isIdentifier first → IsTypeName (first ++ word) := fun first c hc hstart hfirst =>
    IsTypeName.append ⟨hfirst, marked_of_startsWith_upper hc hstart⟩ hword
  unfold baseName
  split
  · exact hcapital "Vec" 'V' rfl (by decide +kernel) (by decide +kernel)
  · exact hcapital "BoundedVec" 'B' rfl (by decide +kernel) (by decide +kernel)
  · exact hcapital "Option" 'O' rfl (by decide +kernel) (by decide +kernel)
  · rename_i len _
    exact ((hcapital "Array" 'A' rfl (by decide +kernel) (by decide +kernel)).append
      (t := "x") (by decide +kernel)).append (all_isIdentifierChar_toString len)
  · exact isTypeName_pascal _

theorem all_isIdentifierChar_leafWord (h : leafWord? d = some word) :
    word.toList.all isIdentifierChar := by
  unfold leafWord? at h
  cases hkind : d.kind <;> rw [hkind] at h <;> cases h
  case primitive kind => cases kind <;> decide +kernel
  case fixedBytes len =>
    exact all_isIdentifierChar_append (s := "Bytes") (by decide +kernel)
      (all_isIdentifierChar_toString len)
  case compact width =>
    exact all_isIdentifierChar_append (s := "CompactU") (by decide +kernel)
      (all_isIdentifierChar_toString width.bits)
  case unsupported fault => exact (isTypeName_pascal d.name).all_isIdentifierChar

theorem all_isIdentifierChar_plainWord (catalog : Catalog) (d : Descriptor) :
    (plainWord catalog d).toList.all isIdentifierChar := by
  unfold plainWord
  split
  · rfl
  · split
    · exact (isTypeName_pascal _).all_isIdentifierChar
    · rename_i e _
      cases hleaf : leafWord? e with
      | none => rfl
      | some word => exact all_isIdentifierChar_leafWord hleaf

namespace TypeNames

/-- All identifiers that are given are of this form. -/
def WellFormed (names : TypeNames) : Prop :=
  ∀ typeName ident, names.get? typeName = some ident → IsTypeName ident

variable {names : TypeNames}

theorem wellFormed_reserving (reserved : List String) : (reserving reserved).WellFormed := by
  intro typeName ident h
  simp [get?_reserving] at h

theorem WellFormed.assign (h : names.WellFormed) (typeName : String) {base : String}
    (hbase : IsTypeName base) : (names.assign typeName base).2.WellFormed := by
  intro other ident hident
  rw [get?_assign] at hident
  split at hident
  · cases hident
    exact hbase.nameFor _
  · exact h other ident hident

/-- The word that naming a type returns has characters of identifiers only, so the containers
around it get identifiers of this form as well. -/
theorem WellFormed.nameWithin (h : names.WellFormed) (fuel : Nat) (d : Descriptor) :
    (TypeNames.nameWithin catalog fuel names d).2.WellFormed ∧
      (TypeNames.nameWithin catalog fuel names d).1.toList.all isIdentifierChar := by
  induction fuel generalizing names d with
  | zero => exact ⟨h, rfl⟩
  | succ fuel ih =>
    have hassign : ∀ {names : TypeNames} {word : String}, names.WellFormed →
        word.toList.all isIdentifierChar →
        (names.assign d.name (baseName d word)).2.WellFormed ∧
          (names.assign d.name (baseName d word)).1.toList.all isIdentifierChar :=
      fun hnames hword => ⟨hnames.assign _ (isTypeName_baseName d hword),
        ((isTypeName_baseName d hword).nameFor _).all_isIdentifierChar⟩
    rw [nameWithin_succ]
    split
    · rename_i ident hident
      exact ⟨h, (h _ _ hident).all_isIdentifierChar⟩
    · split
      · exact hassign h (all_isIdentifierChar_plainWord catalog d)
      · rename_i e _
        obtain ⟨hnames, hword⟩ := ih h e
        exact hassign hnames hword

theorem isTypeName_of_get?_nameAll {reserved : List String} {ds : List Descriptor}
    {typeName : String}
    (h : ((reserving reserved).nameAll catalog ds).get? typeName = some ident) :
    IsTypeName ident := by
  have hall : ((reserving reserved).nameAll catalog ds).WellFormed :=
    List.foldlRecOn ds _ (wellFormed_reserving reserved) fun _ h d _ => (h.nameWithin _ d).1
  exact hall typeName ident h

end TypeNames

end ScaleCalls.Solidity
