import Mathlib.Order.Bounds.Defs
import ScaleCalls.Proofs.Types.Walk

/-!
# A catalog is the closed graph under its references

The catalog of some references holds their handles and everything that these refer to,
and nothing else. What it stores under a name is decided by the table and the name, so
the references could come in any order and any number of times.

## Main statements

- `TypeTable.get?_catalogOf_eq_some` — what is stored under a name
- `TypeTable.isLeast_names_catalogOf` — which names there are
- `TypeTable.catalogOf_reachable_graph` — the two together, and that entering only adds
-/

namespace ScaleCalls.TypeTable

variable {snapshot : Snapshot} {references : List String} {name : String}

theorem catalogOf_concat (table : TypeTable) (references : List String) (reference : String) :
    table.catalogOf (references ++ [reference]) =
      table.enter (table.catalogOf references) reference := by
  simp [catalogOf]

theorem consistent_catalogOf (table : TypeTable) (references : List String) :
    (table.catalogOf references).Consistent :=
  List.foldlRecOn references _ Catalog.consistent_empty fun _ hc reference _ =>
    consistent_enter hc reference

theorem describes_catalogOf (table : TypeTable) (references : List String) :
    table.Describes (table.catalogOf references) := by
  have hempty : table.Describes Catalog.empty := by
    simp [Describes, Catalog.empty, Catalog.toList]
  exact List.foldlRecOn references _ hempty fun _ h reference _ => describes_walk h _ _

theorem not_contains_empty (name : String) : ¬ Catalog.empty.contains name := by
  simp [Catalog.contains, Catalog.empty]

theorem catalogOf_closes (snapshot : Snapshot) (references : List String) :
    (ofSnapshot snapshot).Walked Catalog.empty (references.map (ofSnapshot snapshot).handle)
      ((ofSnapshot snapshot).catalogOf references) := by
  have run : ∀ (references : List String) (start : Catalog), (ofSnapshot snapshot).Walked start
      (references.map (ofSnapshot snapshot).handle)
      (references.foldl (ofSnapshot snapshot).enter start) := by
    intro references
    induction references with
    | nil => exact fun start => Walked.nil _ start
    | cons reference rest ih =>
      intro start
      exact (enter_closes snapshot start reference).cons (ih _)
  exact run references Catalog.empty

theorem get?_catalogOf_eq_some {d : Descriptor} :
    ((ofSnapshot snapshot).catalogOf references).get? name = some d ↔
      ((ofSnapshot snapshot).catalogOf references).contains name ∧
        d = (ofSnapshot snapshot).describe name := by
  have hc := consistent_catalogOf (ofSnapshot snapshot) references
  have hdescribes := describes_catalogOf (ofSnapshot snapshot) references
  rw [hc.get?_eq_some, hc.contains_iff]
  constructor
  · rintro ⟨hd, rfl⟩
    exact ⟨⟨d, hd, rfl⟩, (hdescribes d hd).symm⟩
  · rintro ⟨⟨e, he, hname⟩, rfl⟩
    have := hdescribes e he
    rw [hname] at this
    rw [this]
    exact ⟨he, hname⟩

theorem contains_of_mem_children {d : Descriptor} {child : String}
    (hd : d ∈ ((ofSnapshot snapshot).catalogOf references).toList) (hchild : child ∈ d.children) :
    ((ofSnapshot snapshot).catalogOf references).contains child := by
  have hc := consistent_catalogOf (ofSnapshot snapshot) references
  have hcontains := hc.contains_iff.2 ⟨d, hd, rfl⟩
  rw [← describes_catalogOf (ofSnapshot snapshot) references d hd] at hchild
  exact (catalogOf_closes snapshot references).closes d.name hcontains
    (not_contains_empty d.name) child hchild

theorem mem_of_contains_catalogOf {names : Set String}
    (hclosed : (ofSnapshot snapshot).ClosedUnder names)
    (hhandles : ∀ reference ∈ references, (ofSnapshot snapshot).handle reference ∈ names)
    (h : ((ofSnapshot snapshot).catalogOf references).contains name) : name ∈ names := by
  induction references using List.reverseRecOn generalizing name with
  | nil => exact absurd h (not_contains_empty name)
  | append_singleton references reference ih =>
    rw [catalogOf_concat] at h
    refine mem_of_contains_walk hclosed (fun n hn => ?_) (hhandles reference (by simp)) _ _ h
    exact ih (fun r hr => hhandles r (List.mem_append_left _ hr)) hn

/-- The names of a catalog are the least closed set with the handles of its references. -/
theorem isLeast_names_catalogOf (snapshot : Snapshot) (references : List String) :
    IsLeast
      {names : Set String |
        (∀ reference ∈ references, (ofSnapshot snapshot).handle reference ∈ names) ∧
          ((ofSnapshot snapshot).catalogOf references).Closed names}
      {name | ((ofSnapshot snapshot).catalogOf references).contains name} := by
  have hc := consistent_catalogOf (ofSnapshot snapshot) references
  have henters : ∀ reference ∈ references, ((ofSnapshot snapshot).catalogOf references).contains
      ((ofSnapshot snapshot).handle reference) := fun reference hreference =>
    (catalogOf_closes snapshot references).enters _ (List.mem_map_of_mem hreference)
  constructor
  · refine ⟨henters, ?_⟩
    rintro name - child ⟨d, hd, hchild⟩
    exact contains_of_mem_children (hc.mem_of_get? hd) hchild
  · rintro names ⟨hhandles, hclosed⟩ name hname
    -- a set that is closed in the catalog need not be closed for names without an entry
    have hboth : (ofSnapshot snapshot).ClosedUnder {n | n ∈ names ∧
        ((ofSnapshot snapshot).catalogOf references).contains n} := by
      rintro n ⟨hn, hcontains⟩ child hchild
      have hget := get?_catalogOf_eq_some.2 ⟨hcontains, rfl⟩
      exact ⟨hclosed n hn child ⟨_, hget, hchild⟩,
        contains_of_mem_children (hc.mem_of_get? hget) hchild⟩
    exact (mem_of_contains_catalogOf hboth
      (fun reference hr => ⟨hhandles reference hr, henters reference hr⟩) hname).1

theorem contains_catalogOf_congr {others : List String}
    (h : ∀ reference, reference ∈ others ↔ reference ∈ references) :
    ((ofSnapshot snapshot).catalogOf others).contains name ↔
      ((ofSnapshot snapshot).catalogOf references).contains name := by
  have half : ∀ xs ys : List String, (∀ r, r ∈ xs → r ∈ ys) →
      ((ofSnapshot snapshot).catalogOf xs).contains name →
        ((ofSnapshot snapshot).catalogOf ys).contains name := by
    intro xs ys hsub hname
    have hclosed : (ofSnapshot snapshot).ClosedUnder
        {n | ((ofSnapshot snapshot).catalogOf ys).contains n} := by
      intro n hn child hchild
      exact (catalogOf_closes snapshot ys).closes n hn (not_contains_empty n) child hchild
    refine mem_of_contains_catalogOf hclosed (fun r hr => ?_) hname
    exact (catalogOf_closes snapshot ys).enters _ (List.mem_map_of_mem (hsub r hr))
  exact ⟨half _ _ fun r => (h r).1, half _ _ fun r => (h r).2⟩

/-- A catalog is the closed graph under its references: its names are the least set with
their handles that is closed, each once; what is stored under a name depends on the
table and the name alone; and entering one more reference only adds to the end. -/
theorem catalogOf_reachable_graph (snapshot : Snapshot) (references : List String) :
    let table := ofSnapshot snapshot
    let catalog := table.catalogOf references
    (IsLeast {names : Set String | (∀ reference ∈ references, table.handle reference ∈ names) ∧
          catalog.Closed names} {name | catalog.contains name} ∧
      (∀ d ∈ catalog.toList, ∀ child ∈ d.children, catalog.contains child) ∧
      catalog.names.Nodup) ∧
    ((∀ name d, catalog.get? name = some d → d = table.describe name) ∧
      ∀ others, (∀ reference, reference ∈ others ↔ reference ∈ references) →
        ∀ name, (table.catalogOf others).get? name = catalog.get? name) ∧
    ∀ reference, catalog.toList <+: (table.enter catalog reference).toList ∧
      (∀ name d, catalog.get? name = some d →
        (table.enter catalog reference).get? name = some d) ∧
      (catalog.contains (table.handle reference) → table.enter catalog reference = catalog) := by
  intro table catalog
  have hc : catalog.Consistent := consistent_catalogOf table references
  refine ⟨⟨isLeast_names_catalogOf snapshot references, ?_, hc.nodup_names⟩, ⟨?_, ?_⟩, ?_⟩
  · intro d hd child hchild
    exact contains_of_mem_children hd hchild
  · intro name d hd
    exact (get?_catalogOf_eq_some.1 hd).2
  · intro others hothers name
    refine Option.ext fun d => ?_
    rw [get?_catalogOf_eq_some, get?_catalogOf_eq_some, contains_catalogOf_congr hothers]
  · intro reference
    refine ⟨toList_prefix_walk table _ catalog _, ?_, enter_of_contains⟩
    intro name d hd
    exact get?_enter_of_get? hc hd reference

end ScaleCalls.TypeTable
