import ScaleCalls.Proofs.Solidity.Scope
import ScaleCalls.Solidity.TypeNames

/-!
# Different types have different identifiers

Naming a type may name its element on the way, but it changes the identifiers only by
giving a free one to some type. So whatever such a step preserves holds after naming
any number of types: identifiers stay apart, and a type that has one keeps having one.

## Main definitions

- `namedElement?`, `plainWord` — what the identifier of a container is made of

## Main statements

- `TypeNames.nameWithin_succ` — one link of a chain of containers
- `TypeNames.name_invariant` — what giving an identifier preserves, naming preserves
- `TypeNames.distinct_nameAll` — no two types share an identifier
- `TypeNames.not_mem_reserved_of_get?_nameAll` — no type has a reserved name
- `TypeNames.get?_name` — a type has the identifier that naming it returns
- `TypeNames.isSome_get?_nameAll` — every type that was named has one
-/

namespace ScaleCalls.Solidity

/-- The type that is named before a container: its element, unless there is a word for that. -/
def namedElement? (catalog : Catalog) (d : Descriptor) : Option Descriptor := do
  let e ← catalog.get? (← d.kind.element?)
  if (leafWord? e).isNone then some e else none

/-- The word for the element of a container, where this needs no identifier. -/
def plainWord (catalog : Catalog) (d : Descriptor) : String :=
  match d.kind.element? with
  | none => ""
  | some elem =>
    match catalog.get? elem with
    | none => pascal elem
    | some e => (leafWord? e).getD ""

namespace TypeNames

variable {catalog : Catalog} {names : TypeNames} {d e : Descriptor}
  {typeName base ident : String}

theorem namedElement?_eq_some : namedElement? catalog d = some e ↔
    ∃ elem, d.kind.element? = some elem ∧ catalog.get? elem = some e ∧ leafWord? e = none := by
  simp only [namedElement?, Option.bind_eq_bind, Option.bind_eq_some_iff]
  refine exists_congr fun elem => and_congr_right fun _ => ⟨?_, ?_⟩
  · rintro ⟨e', he', hleaf⟩
    split at hleaf
    · cases hleaf
      exact ⟨he', Option.isNone_iff_eq_none.1 ‹_›⟩
    · cases hleaf
  · rintro ⟨he, hleaf⟩
    exact ⟨e, he, by simp [hleaf]⟩

/-- Naming a type that has no identifier yet: with a word that is there, or after its element. -/
theorem nameWithin_succ (catalog : Catalog) (fuel : Nat) (names : TypeNames) (d : Descriptor) :
    nameWithin catalog (fuel + 1) names d =
      match names.get? d.name with
      | some ident => (ident, names)
      | none =>
        match namedElement? catalog d with
        | none => names.assign d.name (baseName d (plainWord catalog d))
        | some e => (nameWithin catalog fuel names e).2.assign d.name
          (baseName d (nameWithin catalog fuel names e).1) := by
  rw [nameWithin, namedElement?, plainWord]
  cases names.get? d.name with
  | some ident => rfl
  | none =>
    cases d.kind.element? with
    | none => rfl
    | some elem =>
      cases hget : catalog.get? elem with
      | none => simp [hget]
      | some e => cases hleaf : leafWord? e <;> simp [hget, hleaf]

/-- Identifiers are taken, and different types have different ones. -/
structure Distinct (names : TypeNames) : Prop where
  isTaken : ∀ {typeName ident}, names.get? typeName = some ident → names.scope.isTaken ident
  injective : ∀ {a b ident}, names.get? a = some ident → names.get? b = some ident → a = b

theorem get?_assign (names : TypeNames) (typeName base name : String) :
    (names.assign typeName base).2.get? name =
      if typeName = name then some (names.scope.nameFor base) else names.get? name := by
  simp [assign, get?, Std.TreeMap.getElem?_insert]

theorem get?_reserving (reserved : List String) (name : String) :
    (reserving reserved).get? name = none := by
  simp [reserving, get?]

theorem distinct_reserving (reserved : List String) : (reserving reserved).Distinct where
  isTaken h := by simp [get?_reserving] at h
  injective h := by simp [get?_reserving] at h

/-- A new identifier is free, so it is apart from all others. -/
theorem Distinct.assign (h : names.Distinct) (typeName base : String) :
    (names.assign typeName base).2.Distinct where
  isTaken := by
    intro name ident hident
    rw [get?_assign] at hident
    split at hident
    · cases hident
      exact Scope.isTaken_claim_self names.scope base
    · exact Scope.isTaken_claim (h.isTaken hident) base
  injective := by
    intro a b ident ha hb
    have hfree := Scope.not_isTaken_nameFor names.scope base
    rw [get?_assign] at ha hb
    -- the new identifier was free before, so no other type has it
    by_cases hna : typeName = a
    · by_cases hnb : typeName = b
      · rw [← hna, ← hnb]
      · rw [if_pos hna] at ha
        rw [if_neg hnb] at hb
        cases ha
        exact absurd (h.isTaken hb) hfree
    · rw [if_neg hna] at ha
      by_cases hnb : typeName = b
      · rw [if_pos hnb] at hb
        cases hb
        exact absurd (h.isTaken ha) hfree
      · rw [if_neg hnb] at hb
        exact h.injective ha hb

/-- What is preserved by giving one type an identifier is preserved by naming along a
chain of containers. -/
theorem nameWithin_invariant {P : TypeNames → Prop}
    (hP : ∀ names typeName base, P names → P (names.assign typeName base).2)
    (fuel : Nat) (d : Descriptor) (h : P names) : P (nameWithin catalog fuel names d).2 := by
  induction fuel generalizing names d with
  | zero => exact h
  | succ fuel ih =>
    rw [nameWithin_succ]
    split
    · exact h
    · split
      · exact hP _ _ _ h
      · exact hP _ _ _ (ih _ h)

theorem name_invariant {P : TypeNames → Prop}
    (hP : ∀ names typeName base, P names → P (names.assign typeName base).2)
    (d : Descriptor) (h : P names) : P (names.name catalog d).2 :=
  nameWithin_invariant hP _ d h

theorem nameAll_invariant {P : TypeNames → Prop}
    (hP : ∀ names typeName base, P names → P (names.assign typeName base).2)
    (ds : List Descriptor) (h : P names) : P (names.nameAll catalog ds) :=
  List.foldlRecOn ds _ h fun _ h d _ => name_invariant hP d h

theorem isSome_get?_assign (names : TypeNames) (typeName base name : String)
    (h : (names.get? name).isSome) : ((names.assign typeName base).2.get? name).isSome := by
  rw [get?_assign]
  split
  · rfl
  · exact h

/-- What naming a type returns is its identifier from then on. -/
theorem get?_nameWithin (catalog : Catalog) (fuel : Nat) (names : TypeNames) (d : Descriptor) :
    (nameWithin catalog (fuel + 1) names d).2.get? d.name =
      some (nameWithin catalog (fuel + 1) names d).1 := by
  have assigned (names : TypeNames) (base : String) :
      (names.assign d.name base).2.get? d.name = some (names.assign d.name base).1 := by
    rw [get?_assign, if_pos rfl]
    rfl
  rw [nameWithin_succ]
  split
  · assumption
  · split <;> exact assigned _ _

theorem get?_name (catalog : Catalog) (names : TypeNames) (d : Descriptor) :
    (names.name catalog d).2.get? d.name = some (names.name catalog d).1 :=
  get?_nameWithin catalog catalog.size names d

theorem distinct_nameAll (catalog : Catalog) (reserved : List String) (ds : List Descriptor) :
    ((reserving reserved).nameAll catalog ds).Distinct :=
  nameAll_invariant (fun _ typeName base h => h.assign typeName base) ds
    (distinct_reserving reserved)

/-- Reserved names are taken from the start, so no type gets one. -/
theorem not_mem_reserved_of_get?_nameAll {reserved : List String} {ds : List Descriptor}
    (h : ((reserving reserved).nameAll catalog ds).get? typeName = some ident) :
    ident ∉ reserved := by
  have hkept : (∀ name ∈ reserved,
      ((reserving reserved).nameAll catalog ds).scope.isTaken name) ∧
      ∀ typeName ident, ((reserving reserved).nameAll catalog ds).get? typeName = some ident →
        ident ∉ reserved := by
    refine nameAll_invariant (P := fun names => (∀ name ∈ reserved, names.scope.isTaken name) ∧
      ∀ typeName ident, names.get? typeName = some ident → ident ∉ reserved) ?_ ds ⟨?_, ?_⟩
    · rintro names typeName base ⟨htaken, hfree⟩
      refine ⟨fun name hname => Scope.isTaken_claim (htaken name hname) base, ?_⟩
      intro other ident hident
      rw [get?_assign] at hident
      split at hident
      · cases hident
        exact fun hmem => Scope.not_isTaken_nameFor names.scope base (htaken _ hmem)
      · exact hfree other ident hident
    · intro name hname
      exact Scope.isTaken_reserving.2 hname
    · intro other ident hident
      simp [get?_reserving] at hident
  exact hkept.2 typeName ident h

theorem isSome_get?_nameAll {ds : List Descriptor} (hd : d ∈ ds) (names : TypeNames) :
    ((names.nameAll catalog ds).get? d.name).isSome := by
  obtain ⟨front, back, rfl⟩ := List.append_of_mem hd
  rw [nameAll, List.foldl_append, List.foldl_cons]
  exact nameAll_invariant (fun names typeName base h => isSome_get?_assign names typeName base _ h)
    back (Option.isSome_of_eq_some (get?_name catalog _ d))

end TypeNames

end ScaleCalls.Solidity
