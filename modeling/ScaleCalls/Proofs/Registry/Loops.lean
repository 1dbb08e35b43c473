import Mathlib.Data.Fintype.Card
import Mathlib.Data.Fintype.EquivFin
import Mathlib.Order.WellFounded
import ScaleCalls.Proofs.Registry.Cycle
import ScaleCalls.Proofs.Types.Agree
import ScaleCalls.Proofs.Types.ClosedGraph

/-!
# Loops of containers

A container whose element is a container, and so on: along such a chain, each name in the
catalog of a registry can be written for a type that the one before encloses, or it is a
shorter text. So a chain comes back to a name only where a type encloses itself. And where
one does, its naming has left a name behind that stands inside itself.

## Main definitions

- `Registry.Called` — a name that can be written for a type
- `Registry.Encloses` — what a container leads to when names are taken over
- `Registry.Flattens` — a snapshot with the types of a registry

## Main statements

- `exists_encloses_of_loop` — where loops come from
- `exists_loop_of_contains` — where they cannot be avoided
- `exists_loop_iff_contains_itself` — the two together
-/

namespace ScaleCalls.Registry

variable {registry : Registry} {entry : Entry} {number : UInt32} {name text elem child : String}
  {snapshot : Snapshot} {references : List String}

/-- A name that can be written for a type. -/
def Called (registry : Registry) (number : UInt32) (name : String) : Prop :=
  ∃ text, registry.Spelled number text ∧ name = Text.stripBlanks text

/-- The types that are left of the element of a container when all that goes by the name of
another type is passed over. -/
def Encloses (registry : Registry) (outer inner : UInt32) : Prop :=
  ∃ container elem, Relation.ReflTransGen registry.TakesName outer container ∧
    registry.Contains container elem ∧ Relation.ReflTransGen registry.TakesName elem inner

theorem canonicalName_flatEntry (hregistry : registry.WellFormed) (entry : Entry) :
    (flatEntry registry.nameAll entry).canonicalName =
      Text.stripBlanks (registry.nameAll.get entry.id) :=
  TypeEntry.canonicalName_of_ne (spelled_get_nameAll hregistry entry.id).whole.1

/-- The types of the snapshot are the flat table of the registry. -/
def Flattens (registry : Registry) (snapshot : Snapshot) : Prop :=
  snapshot.types = registry.types.toList.map (flatEntry registry.nameAll)

theorem called_of_byId (hregistry : registry.WellFormed) (hflat : registry.Flattens snapshot)
    {found : TypeEntry} (h : (TypeTable.ofSnapshot snapshot).byId[number]? = some found) :
    registry.Called number found.canonicalName := by
  have hmem := TypeTable.mem_of_byId h
  rw [TypeTable.byId_ofSnapshot] at h
  have hid : found.id = number := by simpa using List.find?_some h
  obtain ⟨entry, -, rfl⟩ := List.mem_map.1 (hflat ▸ hmem)
  refine ⟨registry.nameAll.get number, spelled_get_nameAll hregistry number, ?_⟩
  rw [canonicalName_flatEntry hregistry, ← hid]
  rfl

/-- A reference leads to a name of a type by number, or it is a name by itself. -/
theorem handle_cases (hregistry : registry.WellFormed) (hflat : registry.Flattens snapshot)
    (reference : String) :
    (∃ number, lookupId? (Text.stripBlanks reference) = some number ∧
      registry.Called number ((TypeTable.ofSnapshot snapshot).handle reference)) ∨
      (TypeTable.ofSnapshot snapshot).handle reference = Text.stripBlanks reference := by
  unfold TypeTable.handle TypeTable.canonical
  dsimp only
  cases hid : lookupId? (Text.stripBlanks reference) with
  | none => exact .inr rfl
  | some number =>
    cases hfound : (TypeTable.ofSnapshot snapshot).byId[number]? with
    | none =>
      right
      simp only [hfound]
    | some found =>
      refine .inl ⟨number, rfl, ?_⟩
      simp only [hfound]
      exact called_of_byId hregistry hflat hfound

/-- The handle of a text is called for the type, or for the one whose name it goes by. -/
theorem called_handle (hregistry : registry.WellFormed) (hflat : registry.Flattens snapshot)
    (h : registry.Spelled number text) :
    ∃ other, Relation.ReflTransGen registry.TakesName number other ∧ registry.Called other
      ((TypeTable.ofSnapshot snapshot).handle (Text.stripBlanks text)) := by
  obtain ⟨other, hid, hcalled⟩ | hname := handle_cases hregistry hflat (Text.stripBlanks text)
  · rw [Text.stripBlanks_stripBlanks] at hid
    exact ⟨other, h.reference_of_lookupId? hid, hcalled⟩
  · rw [hname, Text.stripBlanks_stripBlanks]
    exact ⟨number, .refl, text, h, rfl⟩

/-! ## From a loop to a type that encloses itself -/

theorem exists_of_holds
    (h : ((TypeTable.ofSnapshot snapshot).catalogOf references).Holds name child) :
    ∃ elem, (TypeName.classify name).element? = some elem ∧
      child = (TypeTable.ofSnapshot snapshot).handle elem := by
  rw [Catalog.Holds] at h
  cases hget : ((TypeTable.ofSnapshot snapshot).catalogOf references).get? name with
  | none =>
    rw [Catalog.kindOf, hget] at h
    cases h
  | some d =>
    rw [Catalog.kindOf_of_get? hget, (TypeTable.get?_catalogOf_eq_some.1 hget).2] at h
    exact TypeTable.exists_of_element?_describe h

/-- From the name of a type, a link leads to a name of a type that it encloses. -/
theorem Called.holds (hregistry : registry.WellFormed) (hflat : registry.Flattens snapshot)
    (hcalled : registry.Called number name)
    (h : ((TypeTable.ofSnapshot snapshot).catalogOf references).Holds name child) :
    ∃ other, registry.Encloses number other ∧ registry.Called other child := by
  obtain ⟨text, hspelled, rfl⟩ := hcalled
  obtain ⟨elem, helem, rfl⟩ := exists_of_holds h
  rw [TypeName.classify, Text.stripBlanks_stripBlanks] at helem
  obtain ⟨container, inner, spelled, hchain, hcontains, hinner, rfl⟩ :=
    hspelled.element hregistry helem
  obtain ⟨other, htakes, hother⟩ := called_handle hregistry hflat hinner
  exact ⟨other, ⟨container, inner, hchain, hcontains, htakes⟩, hother⟩

/-- A link leads to the name of a type or to a shorter text. -/
theorem called_or_shorter (hregistry : registry.WellFormed) (hflat : registry.Flattens snapshot)
    (h : ((TypeTable.ofSnapshot snapshot).catalogOf references).Holds name child) :
    (∃ number, registry.Called number child) ∨ child.length < name.length := by
  obtain ⟨elem, helem, rfl⟩ := exists_of_holds h
  obtain ⟨number, -, hcalled⟩ | hname := handle_cases hregistry hflat elem
  · exact .inl ⟨number, hcalled⟩
  · right
    rw [hname, TypeName.stripBlanks_of_element? helem]
    exact TypeName.length_lt_of_element? helem

/-- Along a chain of links names of types stay names of types. -/
theorem Called.transGen (hregistry : registry.WellFormed) (hflat : registry.Flattens snapshot)
    (hcalled : registry.Called number name)
    (h : Relation.TransGen ((TypeTable.ofSnapshot snapshot).catalogOf references).Holds
      name child) :
    ∃ other, Relation.TransGen registry.Encloses number other ∧ registry.Called other child := by
  induction h with
  | single hholds =>
    obtain ⟨other, hencloses, hother⟩ := hcalled.holds hregistry hflat hholds
    exact ⟨other, .single hencloses, hother⟩
  | tail _ hholds ih =>
    obtain ⟨middle, hchain, hmiddle⟩ := ih
    obtain ⟨other, hencloses, hother⟩ := hmiddle.holds hregistry hflat hholds
    exact ⟨other, hchain.tail hencloses, hother⟩

/-- A chain of links leads to the name of a type or to a shorter text. -/
theorem called_or_shorter_of_transGen (hregistry : registry.WellFormed)
    (hflat : registry.Flattens snapshot)
    (h : Relation.TransGen ((TypeTable.ofSnapshot snapshot).catalogOf references).Holds
      name child) :
    (∃ number, registry.Called number child) ∨ child.length < name.length := by
  induction h with
  | single hholds => exact called_or_shorter hregistry hflat hholds
  | tail _ hholds ih =>
    obtain hcalled | hshorter := called_or_shorter hregistry hflat hholds
    · exact .inl hcalled
    · obtain ⟨number, hcalled⟩ | hshort := ih
      · obtain ⟨other, -, hother⟩ := hcalled.holds hregistry hflat hholds
        exact .inl ⟨other, hother⟩
      · exact .inr (Nat.lt_trans hshorter hshort)

/-- Types are finitely many: where each type of a set leads to another one of it, some type
leads back to itself. -/
theorem exists_loop_of_forall {r : UInt32 → UInt32 → Prop} {set : Set UInt32} (hne : set.Nonempty)
    (h : ∀ number ∈ set, ∃ other ∈ set, Relation.TransGen r number other) :
    ∃ number, Relation.TransGen r number number := by
  by_contra hnone
  have hfinite : Finite UInt32 := Finite.of_injective UInt32.toFin fun a b => UInt32.toFin_inj.1
  have hirrefl : Std.Irrefl (fun a b => Relation.TransGen r b a) :=
    ⟨fun a ha => hnone ⟨a, ha⟩⟩
  have htrans : IsTrans UInt32 (fun a b => Relation.TransGen r b a) :=
    ⟨fun a b c hab hbc => hbc.trans hab⟩
  have hwf := Finite.wellFounded_of_trans_of_irrefl (fun a b => Relation.TransGen r b a)
  obtain ⟨number, hnumber, hleast⟩ := hwf.has_min set hne
  obtain ⟨other, hother, hchain⟩ := h number hnumber
  exact hleast other hother hchain

/-- A loop of containers comes from a type that encloses itself. -/
theorem exists_encloses_of_loop (hregistry : registry.WellFormed)
    (hflat : registry.Flattens snapshot)
    (h : Relation.TransGen ((TypeTable.ofSnapshot snapshot).catalogOf references).Holds
      name name) :
    ∃ number, Relation.TransGen registry.Encloses number number := by
  have hne : {number | registry.Called number name}.Nonempty := by
    obtain hcalled | hshorter := called_or_shorter_of_transGen hregistry hflat h
    · exact hcalled
    · -- no text is shorter than itself
      exact absurd hshorter (Nat.lt_irrefl _)
  -- once around the loop, a type with this name encloses one with the same name
  refine exists_loop_of_forall hne fun number hcalled => ?_
  obtain ⟨other, hchain, hother⟩ := Called.transGen hregistry hflat hcalled h
  exact ⟨other, hother, hchain⟩

theorem wraps_of_takesName {outer inner : UInt32}
    (h : Relation.ReflTransGen registry.TakesName outer inner) :
    Relation.ReflTransGen registry.Wraps outer inner :=
  Relation.ReflTransGen.mono (fun _ _ => Or.inr) outer inner h

theorem Encloses.wraps {outer inner : UInt32} (h : registry.Encloses outer inner) :
    Relation.ReflTransGen registry.Wraps outer inner := by
  obtain ⟨container, elem, hbefore, hcontains, hafter⟩ := h
  exact (wraps_of_takesName hbefore).trans (.head (.inl hcontains) (wraps_of_takesName hafter))

theorem wraps_of_encloses {outer inner : UInt32}
    (h : Relation.ReflTransGen registry.Encloses outer inner) :
    Relation.ReflTransGen registry.Wraps outer inner := by
  induction h with
  | refl => exact .refl
  | tail _ hlink ih => exact ih.trans hlink.wraps

/-- What encloses itself holds itself somewhere. -/
theorem exists_contains_of_encloses (h : Relation.TransGen registry.Encloses number number) :
    ∃ outer inner, registry.Contains outer inner ∧
      Relation.ReflTransGen registry.Wraps inner outer := by
  obtain ⟨middle, ⟨container, elem, hbefore, hcontains, hafter⟩, hback⟩ :=
    Relation.TransGen.head'_iff.1 h
  refine ⟨container, elem, hcontains, ?_⟩
  exact ((wraps_of_takesName hafter).trans (wraps_of_encloses hback)).trans
    (wraps_of_takesName hbefore)

/-! ## From a type that contains itself to a loop -/

variable {outer inner last : UInt32}

/-- The types on a chain that comes back come back to each other. -/
theorem wraps_back (hback : Relation.ReflTransGen registry.Wraps inner outer)
    (hwraps : registry.Wraps outer inner) (h : Relation.ReflTransGen registry.Wraps outer number) :
    ∃ next, registry.Wraps number next ∧ Relation.ReflTransGen registry.Wraps next outer := by
  induction h with
  | refl => exact ⟨inner, hwraps, hback⟩
  | @tail _ number _ hlink ih =>
    obtain ⟨next, hnext, hchain⟩ := ih
    rw [hlink.functional hnext]
    obtain rfl | ⟨after, hafter, hrest⟩ := Relation.ReflTransGen.cases_head hchain
    · exact ⟨inner, hwraps, hback⟩
    · exact ⟨after, hafter, hrest⟩

/-- No type is a container on a chain of types that go by each other's names and that comes
back. -/
theorem takesName_loop (h : Relation.TransGen registry.TakesName number number)
    (hchain : Relation.ReflTransGen registry.Wraps number outer) :
    Relation.TransGen registry.TakesName outer outer := by
  induction hchain with
  | refl => exact h
  | @tail middle next _ hlink ih =>
    obtain ⟨other, htakes, hrest⟩ := Relation.TransGen.head'_iff.1 ih
    rw [hlink.functional (.inr htakes)]
    exact Relation.TransGen.tail' hrest htakes

variable {container : Container} {chain specName : String} {specVersion : UInt32}
  {groups : List CallGroup}

/-- A container whose text comes back by links has the handle of the text inside as its
element. -/
theorem holds_container (hregistry : registry.WellFormed)
    (hentry : registry.get? outer = some entry)
    (hcontainer : entry.container? = some (container, inner))
    (hruns : Runs registry last inner text)
    (hcontains : ((TypeTable.ofSnapshot snapshot).catalogOf references).contains
      (Text.stripBlanks (container.before ++ text ++ container.after))) :
    ((TypeTable.ofSnapshot snapshot).catalogOf references).Holds
      (Text.stripBlanks (container.before ++ text ++ container.after))
      ((TypeTable.ofSnapshot snapshot).handle (Text.stripBlanks text)) := by
  have hget := TypeTable.get?_catalogOf_eq_some.2 ⟨hcontains, rfl⟩
  have hcanonical : (TypeTable.ofSnapshot snapshot).canonical
      (Text.stripBlanks (container.before ++ text ++ container.after)) =
        .ok (Text.stripBlanks (container.before ++ text ++ container.after)) := by
    have hnone := container.lookupId?_eq_none text
    rw [← Text.stripBlanks_stripBlanks] at hnone
    rw [TypeTable.canonical_of_lookupId?_none hnone, Text.stripBlanks_stripBlanks]
  have helem := container.element?_classify (hregistry.sized hentry hcontainer)
    hruns.spelled.whole.2 hruns.letters.1 hruns.letters.2
  rw [TypeName.classify, ← Text.stripBlanks_stripBlanks, ← TypeName.classify] at helem
  rw [Catalog.Holds, Catalog.kindOf_of_get? hget]
  exact TypeTable.element?_describe_of_canonical hcanonical helem

theorem contains_of_holds
    (h : ((TypeTable.ofSnapshot snapshot).catalogOf references).Holds name child) :
    ((TypeTable.ofSnapshot snapshot).catalogOf references).contains child := by
  have hc := TypeTable.consistent_catalogOf (TypeTable.ofSnapshot snapshot) references
  have hchild := Catalog.mem_children_of_holds h
  cases hget : ((TypeTable.ofSnapshot snapshot).catalogOf references).get? name with
  | none =>
    rw [Catalog.kindOf, hget] at hchild
    cases hchild
  | some d =>
    rw [Catalog.kindOf_of_get? hget] at hchild
    exact TypeTable.contains_of_mem_children (hc.mem_of_get? hget) hchild

variable (snapshot references) in
/-- A text that comes back is the reference itself, or its links lead to the handle of the
reference. -/
theorem Runs.reaches (hregistry : registry.WellFormed) (h : Runs registry last number text) :
    (text = idReference last ∧ Relation.ReflTransGen registry.TakesName number last) ∨
      (lookupId? (Text.stripBlanks text) = none ∧
        (((TypeTable.ofSnapshot snapshot).catalogOf references).contains (Text.stripBlanks text) →
          Relation.TransGen ((TypeTable.ofSnapshot snapshot).catalogOf references).Holds
            (Text.stripBlanks text)
            ((TypeTable.ofSnapshot snapshot).handle (idReference last)))) := by
  induction h with
  | stop => exact .inl ⟨rfl, .refl⟩
  | @wrap _ _ text _ haround hruns ih =>
    cases haround with
    | newtype htakes => exact ih.imp (fun h => ⟨h.1, .head htakes h.2⟩) id
    | @container _ container hentry hcontainer =>
      refine .inr ⟨container.lookupId?_eq_none text, fun hcontains => ?_⟩
      have hholds := holds_container hregistry hentry hcontainer hruns hcontains
      obtain ⟨rfl, -⟩ | ⟨hnone, hreaches⟩ := ih
      · rw [stripBlanks_idReference] at hholds
        exact .single hholds
      · -- a text that is no reference stands for itself, so the links go on from it
        have hname : (TypeTable.ofSnapshot snapshot).handle (Text.stripBlanks text) =
            Text.stripBlanks text := by
          rw [← Text.stripBlanks_stripBlanks] at hnone
          rw [TypeTable.handle_of_canonical (TypeTable.canonical_of_lookupId?_none hnone),
            Text.stripBlanks_stripBlanks]
        rw [hname] at hholds
        exact .head hholds (hreaches (contains_of_holds hholds))

theorem handle_recorded (hregistry : registry.WellFormed)
    (hentry : registry.get? number = some entry)
    (hname : registry.nameAll.names[number]? = some name) :
    (TypeTable.ofSnapshot (registry.snapshot chain specName specVersion groups)).handle
      (idReference number) = Text.stripBlanks name := by
  rw [TypeTable.handle_of_canonical (TypeTable.canonical_idReference
    (byId_ofSnapshot hregistry.positional hentry)), canonicalName_flatEntry hregistry,
    hregistry.positional.id_eq hentry, Naming.get, hname, Option.getD_some]

/-- A name that is written around its own reference makes a loop, unless it is this reference
and goes from type to type without a container. -/
theorem loop_of_runs (hregistry : registry.WellFormed)
    (hname : registry.nameAll.names[number]? = some name)
    (haround : Around registry number inner text name) (hruns : Runs registry number inner text) :
    Relation.TransGen registry.TakesName number number ∨
      Relation.TransGen ((TypeTable.ofSnapshot
        (registry.snapshot chain specName specVersion groups)).catalogOf
          [idReference number]).Holds (Text.stripBlanks name) (Text.stripBlanks name) := by
  obtain ⟨entry, -, -, hentry, -⟩ := haround.wraps.rule
  have hhandle : (TypeTable.ofSnapshot
      (registry.snapshot chain specName specVersion groups)).handle (idReference number) =
        Text.stripBlanks name := handle_recorded hregistry hentry hname
  have hcatalog : ((TypeTable.ofSnapshot
      (registry.snapshot chain specName specVersion groups)).catalogOf
        [idReference number]).contains (Text.stripBlanks name) := by
    rw [← hhandle]
    exact (TypeTable.catalogOf_closes _ _).enters _ (List.mem_singleton_self _)
  cases haround with
  | newtype htakes =>
    obtain ⟨-, hrest⟩ | ⟨-, hloop⟩ := Runs.reaches
      (registry.snapshot chain specName specVersion groups) [idReference number] hregistry hruns
    · exact .inl (.head' htakes hrest)
    · rw [hhandle] at hloop
      exact .inr (hloop hcatalog)
  | @container _ container hentry hcontainer =>
    obtain ⟨hreference, -⟩ | ⟨-, hloop⟩ := Runs.reaches
      (registry.snapshot chain specName specVersion groups) [idReference number] hregistry
      (.wrap (.container hentry hcontainer) hruns)
    · -- a reference has no brackets
      have hnone := container.lookupId?_eq_none text
      rw [hreference, stripBlanks_idReference, lookupId?_idReference] at hnone
      cases hnone
    · rw [hhandle] at hloop
      exact .inr (hloop hcatalog)

/-- A type that contains itself, however far inside, makes a loop of containers. -/
theorem exists_loop_of_contains (hregistry : registry.WellFormed)
    (hcontains : registry.Contains outer inner)
    (hback : Relation.ReflTransGen registry.Wraps inner outer) :
    ∃ number name, Relation.TransGen ((TypeTable.ofSnapshot
      (registry.snapshot chain specName specVersion groups)).catalogOf
        [idReference number]).Holds name name := by
  have hset : ∀ z ∈ {z | Relation.ReflTransGen registry.Wraps outer z},
      ∃ next ∈ {z | Relation.ReflTransGen registry.Wraps outer z}, registry.Wraps z next := by
    intro z hz
    obtain ⟨next, hnext, -⟩ := wraps_back hback (.inl hcontains) hz
    exact ⟨next, hz.tail hnext, hnext⟩
  obtain ⟨number, hnumber, link, text, name, hname, haround, hruns⟩ :=
    returns_nameAll hregistry.positional hset ⟨outer, .refl⟩
  obtain htakes | hloop := loop_of_runs hregistry hname haround hruns
  · -- the type on the chain that is a container would go by the name of its field
    obtain ⟨next, hnext, hchain⟩ := wraps_back hback (.inl hcontains) hnumber
    obtain ⟨other, hother, -⟩ :=
      Relation.TransGen.head'_iff.1 (takesName_loop htakes (.head hnext hchain))
    exact absurd hcontains (not_contains_of_takesName hother)
  · exact ⟨number, Text.stripBlanks name, hloop⟩

/-- The catalogs of a registry have a loop of containers exactly when some container of the
registry comes back to itself, through its element and then through containers and composites
that go by the names of their fields. -/
theorem exists_loop_iff_contains_itself (hregistry : registry.WellFormed)
    (chain specName : String) (specVersion : UInt32) (groups : List CallGroup) :
    let table := TypeTable.ofSnapshot (registry.snapshot chain specName specVersion groups)
    (∃ (numbers : List UInt32) (name : String),
      Relation.TransGen (table.catalogOf (numbers.map idReference)).Holds name name) ↔
        ∃ outer inner, registry.Contains outer inner ∧
          Relation.ReflTransGen registry.Wraps inner outer := by
  intro table
  constructor
  · rintro ⟨numbers, name, hloop⟩
    have hflat : registry.Flattens (registry.snapshot chain specName specVersion groups) := by
      rw [Flattens, snapshot]
    obtain ⟨number, hencloses⟩ := exists_encloses_of_loop hregistry hflat hloop
    exact exists_contains_of_encloses hencloses
  · rintro ⟨outer, inner, hcontains, hback⟩
    obtain ⟨number, name, hloop⟩ := exists_loop_of_contains hregistry hcontains hback
    exact ⟨[number], name, hloop⟩

/-- A tree as the list of its branches, without a field of another type. -/
def tree : Registry :=
  ⟨#[⟨0, ["demo", "Tree"], [], .composite [⟨none, 1⟩]⟩, ⟨1, [], [], .sequence 0⟩]⟩

theorem loop_tree :
    let table := TypeTable.ofSnapshot (tree.snapshot "" "" 0 [])
    tree.WellFormed ∧
      (∃ (numbers : List UInt32) (name : String),
        Relation.TransGen (table.catalogOf (numbers.map idReference)).Holds name name) ∧
      table.canonical (idReference 0) = .ok "Vec<Lookup0>" ∧
      (table.catalogOf [idReference 0]).Holds "Vec<Lookup0>" "Vec<Lookup0>" := by
  intro table
  have hregistry : tree.WellFormed := ⟨by decide, by decide, by decide⟩
  have hcontains : tree.Contains 1 0 := ⟨_, .vector, rfl, rfl⟩
  have hnewtype : tree.types[0].newtype? = some 1 := by decide +kernel
  have hback : Relation.ReflTransGen tree.Wraps 0 1 := .single (.inr ⟨_, rfl, hnewtype⟩)
  refine ⟨hregistry, ?_, by decide +kernel, ?_⟩
  · exact (exists_loop_iff_contains_itself hregistry "" "" 0 []).2 ⟨1, 0, hcontains, hback⟩
  · show ((table.catalogOf [idReference 0]).kindOf "Vec<Lookup0>").element? = some "Vec<Lookup0>"
    decide +kernel

end ScaleCalls.Registry
