import Mathlib.Data.List.Nodup
import ScaleCalls.Metadata.Shape
import ScaleCalls.Proofs.Outcome

/-!
# Shapes survive their vocabulary

The JSON value that describes a shape is read back as the same shape, if the vocabulary
has words for it: names that share an object are different, no field is named like a
position, and no variant has fields beside an explicit index.

## Main definitions

- `Shape.WellNamed` — fields that can stand in one object
- `Shape.Expressible` — shapes that the vocabulary has words for

## Main statements

- `Shape.ofJson_toJson`
-/

namespace ScaleCalls

namespace Json.Members

theorem put_of_not_mem {members : Members} {key : String} (value : Json)
    (h : key ∉ members.map Prod.fst) : put members key value = members ++ [(key, value)] := by
  induction members with
  | nil => rfl
  | cons member rest ih =>
    obtain ⟨k, v⟩ := member
    rw [List.map_cons, List.mem_cons, not_or] at h
    rw [put, if_neg (Ne.symm h.1), ih h.2, List.cons_append]

/-- Pairs with different keys are the members that they write. -/
theorem ofPairs_of_nodup {pairs : List (String × Json)} (h : (pairs.map Prod.fst).Nodup) :
    ofPairs pairs = pairs := by
  have run : ∀ (pairs start : List (String × Json)), ((start ++ pairs).map Prod.fst).Nodup →
      pairs.foldl (fun members p => put members p.1 p.2) start = start ++ pairs := by
    intro pairs
    induction pairs with
    | nil => simp
    | cons pair rest ih =>
      intro start hnodup
      have hnew : pair.1 ∉ start.map Prod.fst := by
        rw [List.map_append, List.map_cons] at hnodup
        exact fun hmem => List.disjoint_of_nodup_append hnodup hmem List.mem_cons_self
      rw [List.foldl_cons, put_of_not_mem pair.2 hnew, ih _ (by simpa using hnodup)]
      simp
  exact run pairs [] h

end Json.Members

namespace Shape

/-- Fields whose names can stand in one object: they are different, and none is taken
for a position. -/
def WellNamed (fields : List Field) : Prop :=
  (fields.filterMap Field.name).Nodup ∧
    ∀ f ∈ fields, ∀ name ∈ f.name, isPositionalKey name = false

instance (fields : List Field) : Decidable (WellNamed fields) :=
  inferInstanceAs (Decidable (_ ∧ _))

/-- Shapes that the vocabulary has words for. -/
def Expressible : Shape → Prop
  | record fields => WellNamed fields
  | enum variants => (variants.map Variant.name).Nodup ∧
      ∀ v ∈ variants, WellNamed v.fields ∧ (v.index = none ∨ v.fields = [])

theorem WellNamed.tail {field : Field} {fields : List Field} (h : WellNamed (field :: fields)) :
    WellNamed fields := by
  refine ⟨?_, fun f hf => h.2 f (List.mem_cons_of_mem _ hf)⟩
  have := h.1
  cases hname : field.name with
  | none => rwa [List.filterMap_cons_none hname] at this
  | some name =>
    rw [List.filterMap_cons_some hname] at this
    exact (List.nodup_cons.1 this).2

/-- The key of a position. -/
def positionKey (position : Nat) : String := s!"_{position}"

theorem toList_positionKey (position : Nat) :
    (positionKey position).toList = '_' :: Nat.toDigits 10 position := by
  rw [← Nat.toList_repr]
  exact String.toList_append

theorem isPositionalKey_positionKey (position : Nat) : isPositionalKey (positionKey position) := by
  rw [isPositionalKey, toList_positionKey, withoutUnderscore, List.all_eq_true]
  exact fun c hc => Nat.isDigit_of_mem_toDigits (by decide) (by decide) hc

theorem positionKey_injective {i j : Nat} (h : positionKey i = positionKey j) : i = j := by
  have hlists := congrArg String.toList h
  rw [toList_positionKey, toList_positionKey] at hlists
  have := congrArg (fun digits => Nat.ofDigitChars 10 digits 0) (List.cons.inj hlists).2
  simpa using this

theorem mem_keys_fieldsToPairs {fields : List Field} {position : Nat} {key : String}
    (h : key ∈ (fieldsToPairs position fields).map Prod.fst) :
    key ∈ fields.filterMap Field.name ∨ ∃ i, position ≤ i ∧ key = positionKey i := by
  induction fields generalizing position with
  | nil => simp [fieldsToPairs] at h
  | cons field fields ih =>
    rw [fieldsToPairs, List.map_cons, List.mem_cons] at h
    rcases h with rfl | h
    · cases hname : field.name with
      | none => exact Or.inr ⟨position, Nat.le_refl _, by rw [fieldKey, hname]; rfl⟩
      | some name =>
        rw [List.filterMap_cons_some hname, fieldKey, hname]
        exact Or.inl List.mem_cons_self
    · obtain h | ⟨i, hi, rfl⟩ := ih h
      · obtain ⟨f, hf, hname⟩ := List.mem_filterMap.1 h
        exact Or.inl (List.mem_filterMap.2 ⟨f, List.mem_cons_of_mem _ hf, hname⟩)
      · exact Or.inr ⟨i, by omega, rfl⟩

theorem nodup_keys_fieldsToPairs {fields : List Field} (h : WellNamed fields) (position : Nat) :
    ((fieldsToPairs position fields).map Prod.fst).Nodup := by
  induction fields generalizing position with
  | nil => exact List.nodup_nil
  | cons field fields ih =>
    rw [fieldsToPairs, List.map_cons, List.nodup_cons]
    refine ⟨fun hmem => ?_, ih h.tail _⟩
    have hplain : ∀ name ∈ (field :: fields).filterMap Field.name,
        isPositionalKey name = false := by
      intro name hname
      obtain ⟨f, hf, heq⟩ := List.mem_filterMap.1 hname
      exact h.2 f hf name heq
    have hnodup := h.1
    cases hname : field.name with
    | none =>
      -- a position is no name of a later field, and no later position
      rw [fieldKey, hname] at hmem
      obtain hin | ⟨i, hi, heq⟩ := mem_keys_fieldsToPairs hmem
      · rw [List.filterMap_cons_none hname] at hplain
        have := hplain (positionKey position) hin
        rw [isPositionalKey_positionKey] at this
        cases this
      · have := positionKey_injective heq
        omega
    | some name =>
      -- a name is no later name, and no position
      rw [fieldKey, hname] at hmem
      rw [List.filterMap_cons_some hname] at hnodup hplain
      obtain hin | ⟨i, hi, heq⟩ := mem_keys_fieldsToPairs hmem
      · exact (List.nodup_cons.1 hnodup).1 hin
      · have := hplain name List.mem_cons_self
        rw [show name = positionKey i from heq, isPositionalKey_positionKey] at this
        cases this

theorem fieldsOfMembers_fieldsToPairs {fields : List Field} (h : WellNamed fields)
    (position : Nat) : fieldsOfMembers (fieldsToPairs position fields) = .ok fields := by
  rw [fieldsOfMembers, mapM_eq_ok]
  induction fields generalizing position with
  | nil => exact .nil
  | cons field fields ih =>
    refine .cons ?_ (ih h.tail _)
    obtain ⟨name, reference⟩ := field
    cases name with
    | none =>
      have hkey : isPositionalKey s!"_{position}" := isPositionalKey_positionKey position
      simp only [fieldOfMember, fieldKey, Option.getD_none, hkey, if_true]
    | some name =>
      have hkey : isPositionalKey name = false := h.2 _ List.mem_cons_self name rfl
      simp only [fieldOfMember, fieldKey, Option.getD_some, hkey]
      rfl

theorem fieldsOfMembers_ofPairs {fields : List Field} (h : WellNamed fields) :
    fieldsOfMembers (Json.Members.ofPairs (fieldsToPairs 0 fields)) = .ok fields := by
  rw [Json.Members.ofPairs_of_nodup (nodup_keys_fieldsToPairs h 0)]
  exact fieldsOfMembers_fieldsToPairs h 0

theorem index?_toNat (index : UInt8) : index? (.integer index.toNat) = some index := by
  have := index.toNat_lt
  rw [index?, if_pos (by omega)]
  simp

theorem mapM_fieldOfItem {fields : List Field} (h : fields.all fun f => f.name.isNone) :
    (fields.map fun f => Json.string f.reference).mapM fieldOfItem = .ok fields := by
  rw [mapM_eq_ok, List.forall₂_map_left_iff, List.forall₂_same]
  intro f hf
  obtain ⟨name, reference⟩ := f
  have hname : name = none := by simpa using List.all_eq_true.1 h _ hf
  rw [hname]
  rfl

/-- A variant is read back from the value that describes it. -/
theorem variantOfMember_variantToJson {v : Variant} (hfields : WellNamed v.fields)
    (hindex : v.index = none ∨ v.fields = []) :
    variantOfMember (v.name, variantToJson v) = .ok v := by
  obtain ⟨name, index, fields⟩ := v
  dsimp only at hfields hindex
  cases fields with
  | nil =>
    cases index with
    | none => rfl
    | some index => simp only [variantToJson, variantOfMember, index?_toNat]
  | cons first rest =>
    have hnone : index = none := hindex.resolve_right (List.cons_ne_nil _ _)
    subst hnone
    by_cases hall : (first :: rest).all fun f => f.name.isNone
    · cases rest with
      | nil =>
        obtain ⟨firstName, reference⟩ := first
        have hname : firstName = none := by simpa using hall
        rw [hname]
        rfl
      | cons second rest =>
        simp only [variantToJson, hall, if_true, variantOfMember, mapM_fieldOfItem hall]
        rfl
    · have hobject : variantToJson ⟨name, none, first :: rest⟩ = fieldsToJson (first :: rest) := by
        unfold variantToJson
        split
        · rename_i h
          cases h
        · rename_i reference h
          cases h
          exact absurd rfl hall
        · rw [if_neg hall]
      simp only [hobject, fieldsToJson, variantOfMember, fieldsOfMembers_ofPairs hfields]
      rfl

theorem ofJson_toJson {shape : Shape} (h : shape.Expressible) :
    ofJson shape.toJson = .ok shape := by
  cases shape with
  | record fields =>
    change (do
      return record (← fieldsOfMembers (Json.Members.ofPairs (fieldsToPairs 0 fields)))) = _
    rw [fieldsOfMembers_ofPairs h]
    rfl
  | enum variants =>
    have hkeys : ((variants.map fun v => (v.name, variantToJson v)).map Prod.fst).Nodup := by
      rw [List.map_map]
      exact h.1
    have hvariants : (variants.map fun v => (v.name, variantToJson v)).mapM variantOfMember =
        .ok variants := by
      rw [mapM_eq_ok, List.forall₂_map_left_iff, List.forall₂_same]
      exact fun v hv => variantOfMember_variantToJson (h.2 v hv).1 (h.2 v hv).2
    change (do return enum (← (Json.Members.ofPairs
      (variants.map fun v : Variant => (v.name, variantToJson v))).mapM variantOfMember)) = _
    rw [Json.Members.ofPairs_of_nodup hkeys, hvariants]
    rfl

end Shape

end ScaleCalls
