import ScaleCalls.Proofs.Calls.Closed

/-!
# Names at the top level of a unit

The scope that gives identifiers to types keeps them apart from each other, from the
library of the unit and from the library of primitive codecs. The names of tag enums and of
codec libraries do not come from this scope: they are identifiers with something behind
them. Such a name is apart from every other one of its kind, but it may be the identifier
of another type, or the name of the library of primitive codecs.

## Main definitions

- `SourceUnit.topLevelNames` — all names that the file of a unit declares or imports
- `SourceUnit.derivedNames` — the names that are made of identifiers

## Main statements

- `Collection.eq_of_name_eq` — declarations of one kind with one name are the same
- `Collection.nodup_topLevelNames_iff` — when no two names clash
-/

namespace ScaleCalls

namespace Solidity

/-- The name that is declared. -/
def Declaration.name : Declaration → String
  | .tagEnum name _ => name
  | .record name _ => name
  | .codec c => c.name

/-- What stands behind the identifier of a type in the name that is declared. -/
def Declaration.ending : Declaration → String
  | .tagEnum _ _ => "Tag"
  | .record _ _ => ""
  | .codec _ => "Codec"

/-- The declared name is not an identifier as it was given to a type. -/
def Declaration.isDerived : Declaration → Bool
  | .tagEnum _ _ | .codec _ => true
  | .record _ _ => false

namespace SourceUnit

/-- All names at the top level of the file of a unit: what it declares, its own library,
and the library of primitive codecs, which it imports. -/
def topLevelNames (unit : SourceUnit) (codecLibrary : String) : List String :=
  unit.declarations.map Declaration.name ++ [unit.library, codecLibrary]

/-- The names of tag enums and codec libraries. -/
def derivedNames (unit : SourceUnit) : List String :=
  (unit.declarations.filter Declaration.isDerived).map Declaration.name

/-- The names of structs. -/
def structNames (unit : SourceUnit) : List String :=
  (unit.declarations.filter fun x => !x.isDerived).map Declaration.name

end SourceUnit

/-- Texts with different last characters are different. -/
theorem append_ne_append {a b s t : String} (hs : s ≠ "") (ht : t ≠ "")
    (h : s.toList.getLast? ≠ t.toList.getLast?) : a ++ s ≠ b ++ t := by
  intro heq
  have hlists : a.toList ++ s.toList = b.toList ++ t.toList := by
    rw [← String.toList_append, ← String.toList_append, heq]
  have hlast := congrArg List.getLast? hlists
  rw [List.getLast?_append_of_ne_nil _ (by simpa using hs),
    List.getLast?_append_of_ne_nil _ (by simpa using ht)] at hlast
  exact h hlast

namespace Lowering

variable {lowering : Lowering} {d : Descriptor} {x y : Declaration}

theorem name_of_mem_declarations (h : x ∈ lowering.declarations d) :
    x.name = lowering.ident d.name ++ x.ending := by
  unfold declarations at h
  cases hkind : d.kind <;>
    simp only [hkind, codec, List.mem_cons, List.not_mem_nil, or_false] at h
  case record => obtain rfl | rfl := h <;> simp [Declaration.name, Declaration.ending, codecName]
  case enum =>
    obtain rfl | rfl | rfl := h <;> simp [Declaration.name, Declaration.ending, codecName]
  case option => obtain rfl | rfl := h <;> simp [Declaration.name, Declaration.ending, codecName]
  all_goals subst h; simp [Declaration.name, Declaration.ending, codecName]

/-- The declarations of a type are told apart by what they add to its identifier. -/
theorem nodup_endings (lowering : Lowering) (d : Descriptor) :
    ((lowering.declarations d).map Declaration.ending).Nodup := by
  unfold declarations
  cases d.kind <;> simp [codec, Declaration.ending]

theorem eq_of_ending_eq (hx : x ∈ lowering.declarations d) (hy : y ∈ lowering.declarations d)
    (h : x.ending = y.ending) : x = y :=
  List.inj_on_of_nodup_map (nodup_endings lowering d) hx hy h

end Lowering

end Solidity

namespace Collection

open Solidity

variable {collection : Collection} {calls : List ResolvedCall} {skipped : List SkipNote}
  {codecLibrary group : String} {x y : Declaration}

/-- What is declared is declared for one type. -/
theorem exists_declared
    (h : x ∈ (collection.unitOf codecLibrary group calls skipped).declarations) :
    ∃ d ∈ collection.declaredTypes calls,
      x ∈ (collection.lowering codecLibrary group calls).declarations d ∧
      ∃ ident, (collection.lowering codecLibrary group calls).names.get? d.name = some ident ∧
        x.name = ident ++ x.ending := by
  obtain ⟨d, hd, hdeclared⟩ := mem_declarations_unitOf.1 h
  have hnamed : ((collection.lowering codecLibrary group calls).names.get? d.name).isSome :=
    TypeNames.isSome_get?_nameAll hd _
  obtain ⟨ident, hident⟩ := Option.isSome_iff_exists.1 hnamed
  refine ⟨d, hd, hdeclared, ident, hident, ?_⟩
  rw [Lowering.name_of_mem_declarations hdeclared, Lowering.ident, hident, Option.getD_some]

/-- The kind of a declaration with something behind the identifier shows in its name. -/
theorem ending_eq_of_name_eq {a b : String} (hkind : x.isDerived = y.isDerived)
    (hx : x.name = a ++ x.ending) (hy : y.name = b ++ y.ending) (h : x.name = y.name) :
    x.ending = y.ending := by
  have happ : ∀ a b : String, a ++ "Tag" ≠ b ++ "Codec" := fun _ _ =>
    append_ne_append (by decide) (by decide) (by decide)
  rw [hx, hy] at h
  cases x with
  | record =>
    cases y with
    | record => rfl
    | _ => cases hkind
  | tagEnum =>
    cases y with
    | tagEnum => rfl
    | record => cases hkind
    | codec => exact absurd h (happ a b)
  | codec =>
    cases y with
    | codec => rfl
    | record => cases hkind
    | tagEnum => exact absurd h.symm (happ b a)

/-- No two structs have one name, and no two tag enums or codec libraries. -/
theorem eq_of_name_eq (hc : collection.catalog.Consistent)
    (hx : x ∈ (collection.unitOf codecLibrary group calls skipped).declarations)
    (hy : y ∈ (collection.unitOf codecLibrary group calls skipped).declarations)
    (hkind : x.isDerived = y.isDerived) (h : x.name = y.name) : x = y := by
  obtain ⟨d, hd, hxd, a, ha, hxname⟩ := exists_declared hx
  obtain ⟨e, he, hye, b, hb, hyname⟩ := exists_declared hy
  have hending := ending_eq_of_name_eq hkind hxname hyname h
  rw [hxname, hyname, hending, String.append_left_inj] at h
  subst h
  obtain rfl : d = e := by
    have hname := (TypeNames.distinct_nameAll _ _ _).injective ha hb
    have hget := (get?_of_mem_declaredTypes hc hd).1
    rw [hname, (get?_of_mem_declaredTypes hc he).1] at hget
    exact (Option.some.inj hget).symm
  exact Lowering.eq_of_ending_eq hxd hye hending

theorem nodup_declarations_unitOf (hc : collection.catalog.Consistent) :
    (collection.unitOf codecLibrary group calls skipped).declarations.Nodup := by
  refine List.nodup_flatMap.2 ⟨fun d _ => (Lowering.nodup_endings _ d).of_map _, ?_⟩
  have htypes : (collection.declaredTypes calls).Nodup := (Catalog.nodup_reachable hc _).of_map _
  refine htypes.imp_of_mem fun {d e} hd he hne x hxd hxe => hne ?_
  -- a declaration that two types share would make their identifiers the same
  have hident := (Lowering.name_of_mem_declarations hxd).symm.trans
    (Lowering.name_of_mem_declarations hxe)
  exact eq_of_ident_eq hc hd he (String.append_left_inj _ |>.1 hident)

/-- Declared names clash only across kinds: that of a tag enum or of a codec library with
that of a struct. -/
theorem nodup_names_unitOf_iff (hc : collection.catalog.Consistent) :
    ((collection.unitOf codecLibrary group calls skipped).declarations.map
        Declaration.name).Nodup ↔
      ∀ name ∈ (collection.unitOf codecLibrary group calls skipped).derivedNames,
        name ∉ (collection.unitOf codecLibrary group calls skipped).structNames := by
  generalize hunit : collection.unitOf codecLibrary group calls skipped = unit
  constructor
  · intro hnodup name hderived hstruct
    obtain ⟨x, hx, rfl⟩ := List.mem_map.1 hderived
    obtain ⟨y, hy, hname⟩ := List.mem_map.1 hstruct
    obtain ⟨hx, hxkind⟩ := List.mem_filter.1 hx
    obtain ⟨hy, hykind⟩ := List.mem_filter.1 hy
    obtain rfl := List.inj_on_of_nodup_map hnodup hy hx hname
    rw [hxkind] at hykind
    cases hykind
  · intro hapart
    have hclash : ∀ x ∈ unit.declarations, ∀ y ∈ unit.declarations, x.isDerived = true →
        y.isDerived = false → x.name ≠ y.name := by
      intro x hx y hy hxkind hykind hname
      refine hapart x.name (List.mem_map_of_mem (List.mem_filter.2 ⟨hx, hxkind⟩)) ?_
      rw [hname]
      exact List.mem_map_of_mem (List.mem_filter.2 ⟨hy, by rw [hykind]; rfl⟩)
    subst hunit
    refine (nodup_declarations_unitOf hc).map_on fun x hx y hy hname => ?_
    cases hxkind : x.isDerived <;> cases hykind : y.isDerived
    · exact eq_of_name_eq hc hx hy (hxkind.trans hykind.symm) hname
    · exact absurd hname.symm (hclash y hy x hx hykind hxkind)
    · exact absurd hname (hclash x hx y hy hxkind hykind)
    · exact eq_of_name_eq hc hx hy (hxkind.trans hykind.symm) hname

/-- The names of structs are not reserved. -/
theorem not_mem_reserved_of_struct
    (hx : x ∈ (collection.unitOf codecLibrary group calls skipped).declarations)
    (hkind : x.isDerived = false) : x.name ∉ [libraryName group, codecLibrary] := by
  obtain ⟨d, -, -, ident, hident, hname⟩ := exists_declared hx
  have hplain : x.name = ident := by
    rw [hname]
    cases x with
    | record => exact String.append_empty
    | _ => cases hkind
  rw [hplain]
  exact TypeNames.not_mem_reserved_of_get?_nameAll hident

/-- The library of a unit ends like no derived name. -/
theorem name_ne_library_of_derived
    (hx : x ∈ (collection.unitOf codecLibrary group calls skipped).declarations)
    (hkind : x.isDerived = true) : x.name ≠ libraryName group := by
  obtain ⟨d, -, -, ident, -, hname⟩ := exists_declared hx
  rw [hname]
  cases x with
  | record => cases hkind
  | tagEnum =>
    exact append_ne_append (s := "Tag") (t := "CallEncoder") (by decide) (by decide) (by decide)
  | codec =>
    exact append_ne_append (s := "Codec") (t := "CallEncoder") (by decide) (by decide) (by decide)

/-- The names at the top level of a unit are pairwise different exactly if the library of
the unit and the library of primitive codecs are, and no name of a tag enum or of a codec
library is also the name of a struct or of the library of primitive codecs. -/
theorem nodup_topLevelNames_iff (snapshot : Snapshot) (requested : List String) (policy : Policy)
    (codecLibrary group : String) (unit : SourceUnit)
    (h : (ofSnapshot snapshot requested).unit policy codecLibrary group = .ok unit) :
    (unit.topLevelNames codecLibrary).Nodup ↔
      unit.library ≠ codecLibrary ∧
        ∀ name ∈ unit.derivedNames, name ≠ codecLibrary ∧ name ∉ unit.structNames := by
  obtain ⟨skipped, rfl⟩ := exists_unitOf h
  have hlibrary : ∀ codecLibrary : String,
      [libraryName group, codecLibrary].Nodup ↔ libraryName group ≠ codecLibrary := by simp
  rw [SourceUnit.topLevelNames, List.nodup_append,
    nodup_names_unitOf_iff (consistent_ofSnapshot snapshot requested)]
  constructor
  · rintro ⟨hapart, hlibraries, hreserved⟩
    refine ⟨(hlibrary codecLibrary).1 hlibraries, fun name hname => ⟨?_, hapart name hname⟩⟩
    obtain ⟨x, hx, rfl⟩ := List.mem_map.1 hname
    exact hreserved _ (List.mem_map_of_mem (List.mem_filter.1 hx).1) _ (by simp)
  · rintro ⟨hlibraries, hderived⟩
    refine ⟨fun name hname => (hderived name hname).2, (hlibrary codecLibrary).2 hlibraries, ?_⟩
    intro name hname reserved hreserved
    obtain ⟨x, hx, rfl⟩ := List.mem_map.1 hname
    cases hkind : x.isDerived with
    | false =>
      rintro rfl
      exact not_mem_reserved_of_struct hx hkind hreserved
    | true =>
      rcases List.mem_cons.1 hreserved with rfl | hreserved
      · exact name_ne_library_of_derived hx hkind
      · rw [List.mem_singleton.1 hreserved]
        exact (hderived x.name (List.mem_map_of_mem (List.mem_filter.2 ⟨hx, hkind⟩))).1

/-- A snapshot with an enum, and with a struct that is named like the tag enum of it. -/
def tagSnapshot : Snapshot where
  chain := ""
  specName := ""
  specVersion := 0
  pallets := [⟨"Demo", 7, [⟨"set", 0, [⟨"a", "Foo"⟩, ⟨"b", "FooTag"⟩]⟩]⟩]
  types := [⟨0, "Foo", [], some (.object [("_enum", .array [.string "A"])])⟩,
    ⟨1, "FooTag", [], some (.object [("_struct", .object [("x", .string "u8")])])⟩]

theorem topLevelNames_clash_tag : ∃ unit,
    (ofSnapshot tagSnapshot ["Demo"]).unit .skip "ScaleCodec" "Demo" = .ok unit ∧
      "FooTag" ∈ unit.derivedNames ∧ "FooTag" ∈ unit.structNames ∧
      ¬ (unit.topLevelNames "ScaleCodec").Nodup := by
  have hunit := unit_skip (ofSnapshot tagSnapshot ["Demo"]) "ScaleCodec" "Demo"
  have hderived : "FooTag" ∈ ((ofSnapshot tagSnapshot ["Demo"]).skippingUnit
      "ScaleCodec" "Demo").derivedNames := by decide +kernel
  have hstruct : "FooTag" ∈ ((ofSnapshot tagSnapshot ["Demo"]).skippingUnit
      "ScaleCodec" "Demo").structNames := by decide +kernel
  refine ⟨_, hunit, hderived, hstruct, fun hnodup => ?_⟩
  exact (((nodup_topLevelNames_iff tagSnapshot ["Demo"] .skip "ScaleCodec" "Demo" _ hunit).1
    hnodup).2 "FooTag" hderived).2 hstruct

end Collection

end ScaleCalls
