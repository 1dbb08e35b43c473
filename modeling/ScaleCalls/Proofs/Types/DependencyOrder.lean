import Mathlib.Data.Set.Insert
import ScaleCalls.Proofs.Types.Reachable

/-!
# The types to declare are listed in the order of their dependencies

The search for the types to declare lists a type when all its handles are done. Only on a
cycle a handle may still be open at that time. The names that are open lie on the way to the
name that is visited, so they all lead to it, and a handle that does not lead back has been
listed before.

`Catalog.Traversal` is the same search without a depth: a name that is entered leaves a task
behind its handles, to be listed when these are done. It has no choice in any step, and it
comes to an end on every catalog.

## Main definitions

- `Catalog.DependenciesFirst` — a list with types behind those that they refer to
- `Catalog.Traversal`, `Catalog.TraversalStep` — the search without a depth

## Main statements

- `Catalog.visit_settled` — what one visit keeps while some names are open
- `Catalog.visit_steps` — a visit with enough depth is a sequence of steps
- `Catalog.reachable_dependency_order` — what is listed, in which order, and that the search
  ends
-/

namespace ScaleCalls.Catalog

variable {catalog : Catalog} {name : String} {roots : List String} {d : Descriptor}
  {done rest : List Descriptor} {state : Catalog.Ordering} {opened : Set String}

/-! ## The order -/

/-- In a list with the latest type first, every type has behind it the types of its handles
that need a declaration and do not lead back to it. -/
inductive DependenciesFirst (catalog : Catalog) : List Descriptor → Prop
  | nil : DependenciesFirst catalog []
  | cons {a : Descriptor} {rest : List Descriptor}
      (h : ∀ b, b.name ∈ a.children → catalog.get? b.name = some b → b.isLeaf = false →
        ¬ catalog.Reaches b.name a.name → b ∈ rest)
      (hrest : DependenciesFirst catalog rest) : DependenciesFirst catalog (a :: rest)

theorem DependenciesFirst.sublist {a b : Descriptor} (h : catalog.DependenciesFirst done)
    (ha : a ∈ done) (hchild : b.name ∈ a.children) (hb : catalog.get? b.name = some b)
    (hleaf : b.isLeaf = false) (hback : ¬ catalog.Reaches b.name a.name) :
    [a, b].Sublist done := by
  induction h with
  | nil => cases ha
  | cons h _ ih =>
    rcases List.mem_cons.1 ha with rfl | ha
    · exact (List.singleton_sublist.2 (h b hchild hb hleaf hback)).cons_cons a
    · exact (ih ha).cons _

/-- A search on its way: the names that are open have been seen, all other names that have
been seen are listed if they need it, and the list is in order. -/
structure Settled (catalog : Catalog) (opened : Set String) (state : Catalog.Ordering) : Prop where
  listed : ∀ d, state.seen.contains d.name → d.name ∉ opened → catalog.get? d.name = some d →
    d.isLeaf = false → d ∈ state.done
  ordered : catalog.DependenciesFirst state.done

theorem settled_start (catalog : Catalog) : catalog.Settled ∅ ⟨∅, []⟩ where
  listed := by simp
  ordered := .nil

/-- A name is opened when it is seen. -/
theorem Settled.open (h : catalog.Settled opened state) (name : String) :
    catalog.Settled (Insert.insert name opened) ⟨state.seen.insert name, state.done⟩ where
  listed := by
    intro d hseen hopened hd hleaf
    rw [Set.mem_insert_iff, not_or] at hopened
    rw [contains_insert_seen, Bool.or_eq_true, beq_iff_eq] at hseen
    exact h.listed d (hseen.resolve_left (Ne.symm hopened.1)) hopened.2 hd hleaf
  ordered := h.ordered

/-- A name that needs no declaration is closed without being listed. -/
theorem Settled.close (h : catalog.Settled (Insert.insert name opened) state)
    (hname : ∀ d, d.name = name → catalog.get? name = some d → d.isLeaf = true) :
    catalog.Settled opened state where
  listed := by
    intro d hseen hopened hd hleaf
    refine h.listed d hseen (fun hmem => ?_) hd hleaf
    have heq := (Set.mem_insert_iff.1 hmem).resolve_right hopened
    rw [hname d heq (heq ▸ hd)] at hleaf
    cases hleaf
  ordered := h.ordered

/-- A name whose handles have been seen is listed when it is closed. Of the names that are
open each leads to it, so what does not lead to it is listed already. -/
theorem Settled.list (hc : catalog.Consistent)
    (h : catalog.Settled (Insert.insert name opened) state) (hd : catalog.get? name = some d)
    (hopened : ∀ n ∈ opened, catalog.Reaches n name)
    (hchildren : ∀ child ∈ d.children, state.seen.contains child) :
    catalog.Settled opened ⟨state.seen, d :: state.done⟩ where
  listed := by
    intro e hseen hopened he hleaf
    by_cases heq : e.name = name
    · rw [heq, hd] at he
      exact Option.some.inj he ▸ List.mem_cons_self
    · have hclosed : e.name ∉ Insert.insert name opened :=
        fun hmem => (Set.mem_insert_iff.1 hmem).elim heq hopened
      exact List.mem_cons_of_mem _ (h.listed e hseen hclosed he hleaf)
  ordered := by
    obtain rfl := hc.name_of_get? hd
    refine .cons (fun b hchild hb hleaf hback => ?_) h.ordered
    refine h.listed b (hchildren _ hchild) (fun hmem => hback ?_) hb hleaf
    rcases Set.mem_insert_iff.1 hmem with heq | hmem
    · exact heq ▸ .refl
    · exact hopened _ hmem

/-- Names are visited one after the other, each while the same names are open. -/
theorem Settled.foldl {step : Catalog.Ordering → String → Catalog.Ordering} {room : Nat}
    {names : List String}
    (hstep : ∀ state, ∀ name ∈ names, unvisited catalog.names state.seen.contains < room →
      catalog.Settled opened state → catalog.Settled opened (step state name))
    (hkeep : ∀ state name n, state.seen.contains n → (step state name).seen.contains n)
    (hroom : unvisited catalog.names state.seen.contains < room)
    (h : catalog.Settled opened state) : catalog.Settled opened (names.foldl step state) := by
  induction names generalizing state with
  | nil => exact h
  | cons name rest ih =>
    refine ih (fun state n hn => hstep state n (List.mem_cons_of_mem _ hn)) ?_
      (hstep state name List.mem_cons_self hroom h)
    exact Nat.lt_of_le_of_lt (unvisited_mono (hkeep state name)) hroom

/-- A visit leaves every name settled that it comes to, while the names that are open lead to
the name that is visited. The induction is on the depth, and the name is open for the visits
of its handles. -/
theorem visit_settled (hc : catalog.Consistent) {fuel : Nat}
    (hfuel : unvisited catalog.names state.seen.contains < fuel)
    (hopened : ∀ n ∈ opened, catalog.Reaches n name) (h : catalog.Settled opened state) :
    catalog.Settled opened (catalog.visit fuel state name) := by
  induction fuel generalizing state name opened with
  | zero => exact absurd hfuel (Nat.not_lt_zero _)
  | succ fuel ih =>
    rw [visit]
    by_cases hseen : state.seen.contains name
    · rwa [if_pos hseen]
    · rw [if_neg hseen]
      cases hget : catalog.get? name with
      | none =>
        refine (h.open name).close fun d _ hd => ?_
        rw [hget] at hd
        cases hd
      | some d =>
        have hmem : name ∈ catalog.names := hc.mem_names.2 (hc.contains_iff_get?.2 ⟨d, hget⟩)
        have hless := unvisited_insert_lt hmem hseen
        have hroom : unvisited catalog.names
            (⟨state.seen.insert name, state.done⟩ : Catalog.Ordering).seen.contains < fuel :=
          Nat.lt_of_lt_of_le hless (Nat.lt_succ_iff.1 hfuel)
        have hreaches : ∀ child ∈ d.children, ∀ n ∈ Insert.insert name opened,
            catalog.Reaches n child := by
          intro child hchild n hn
          have hstep : catalog.Refers name child := ⟨d, hget, hchild⟩
          rcases Set.mem_insert_iff.1 hn with rfl | hn
          · exact .single hstep
          · exact (hopened n hn).tail hstep
        have hbelow : catalog.Settled (Insert.insert name opened)
            (d.children.foldl (catalog.visit fuel) ⟨state.seen.insert name, state.done⟩) :=
          Settled.foldl (fun _ child hchild hroom => ih hroom (hreaches child hchild))
            (fun state name => (visit_listed hc fuel state name).keeps) hroom (h.open name)
        have hchildren := (Explored.foldl (fun _ child hroom => visit_explores hc hroom child)
          d.children hroom).enters
        dsimp only
        by_cases hleaf : d.isLeaf
        · rw [if_pos hleaf]
          refine hbelow.close fun e _ he => ?_
          rw [hget] at he
          exact Option.some.inj he ▸ hleaf
        · rw [if_neg hleaf]
          exact hbelow.list hc hget hopened hchildren

theorem settled_reachable (hc : catalog.Consistent) (roots : List String) :
    catalog.Settled ∅ (roots.foldl (catalog.visit (catalog.size + 1)) ⟨∅, []⟩) := by
  refine Settled.foldl (fun _ root _ hroom => visit_settled hc hroom (by simp))
    (fun state name => (visit_listed hc _ state name).keeps) ?_ (settled_start catalog)
  rw [← Consistent.length_names]
  exact Nat.lt_succ_of_le (unvisited_le_length _ _)

/-! ## The search without a depth -/

/-- What a search has still to do: come to a name, or list a type whose handles are done. -/
inductive Todo where
  | enter (name : String)
  | leave (d : Descriptor)

/-- A search on its way: what it has seen and listed, and the tasks that wait, the next one
first. -/
structure Traversal where
  state : Catalog.Ordering
  waiting : List Todo

/-- The next name was seen before, or it is seen now, and its handles are next if it has an
entry. A type that is left is listed if it needs a declaration. -/
inductive TraversalStep (catalog : Catalog) : Traversal → Traversal → Prop
  | skip {state : Catalog.Ordering} {name : String} {rest : List Todo}
      (h : state.seen.contains name) :
      TraversalStep catalog ⟨state, .enter name :: rest⟩ ⟨state, rest⟩
  | missing {state : Catalog.Ordering} {name : String} {rest : List Todo}
      (h : ¬ state.seen.contains name) (hget : catalog.get? name = none) :
      TraversalStep catalog ⟨state, .enter name :: rest⟩
        ⟨⟨state.seen.insert name, state.done⟩, rest⟩
  | enter {state : Catalog.Ordering} {name : String} {rest : List Todo} {d : Descriptor}
      (h : ¬ state.seen.contains name) (hget : catalog.get? name = some d) :
      TraversalStep catalog ⟨state, .enter name :: rest⟩
        ⟨⟨state.seen.insert name, state.done⟩, d.children.map .enter ++ .leave d :: rest⟩
  | pass {state : Catalog.Ordering} {d : Descriptor} {rest : List Todo} (h : d.isLeaf) :
      TraversalStep catalog ⟨state, .leave d :: rest⟩ ⟨state, rest⟩
  | list {state : Catalog.Ordering} {d : Descriptor} {rest : List Todo} (h : ¬ d.isLeaf) :
      TraversalStep catalog ⟨state, .leave d :: rest⟩ ⟨⟨state.seen, d :: state.done⟩, rest⟩

/-- The search from some roots, which are visited one after the other. -/
def traversalFrom (roots : List String) : Traversal := ⟨⟨∅, []⟩, roots.map .enter⟩

theorem traversalStep_rightUnique (catalog : Catalog) :
    Relator.RightUnique catalog.TraversalStep := by
  intro now next next' h h'
  cases h <;> cases h' <;> simp_all

/-- Names are visited one after the other in as many steps as it takes, if each of them is. -/
theorem foldl_steps {step : Catalog.Ordering → String → Catalog.Ordering} {room : Nat}
    (hstep : ∀ state name rest, unvisited catalog.names state.seen.contains < room →
      Relation.ReflTransGen catalog.TraversalStep ⟨state, .enter name :: rest⟩
        ⟨step state name, rest⟩)
    (hkeep : ∀ state name n, state.seen.contains n → (step state name).seen.contains n)
    (names : List String) (rest : List Todo)
    (hroom : unvisited catalog.names state.seen.contains < room) :
    Relation.ReflTransGen catalog.TraversalStep ⟨state, names.map .enter ++ rest⟩
      ⟨names.foldl step state, rest⟩ := by
  induction names generalizing state with
  | nil => exact .refl
  | cons name names ih =>
    refine (hstep state name (names.map .enter ++ rest) hroom).trans (ih ?_)
    exact Nat.lt_of_le_of_lt (unvisited_mono (hkeep state name)) hroom

/-- A visit that may go deeper than there are names left to see is a sequence of steps. -/
theorem visit_steps (hc : catalog.Consistent) {fuel : Nat} (name : String) (rest : List Todo)
    (hfuel : unvisited catalog.names state.seen.contains < fuel) :
    Relation.ReflTransGen catalog.TraversalStep ⟨state, .enter name :: rest⟩
      ⟨catalog.visit fuel state name, rest⟩ := by
  induction fuel generalizing state name rest with
  | zero => exact absurd hfuel (Nat.not_lt_zero _)
  | succ fuel ih =>
    rw [visit]
    by_cases hseen : state.seen.contains name
    · rw [if_pos hseen]
      exact .single (.skip hseen)
    · rw [if_neg hseen]
      cases hget : catalog.get? name with
      | none => exact .single (.missing hseen hget)
      | some d =>
        have hmem : name ∈ catalog.names := hc.mem_names.2 (hc.contains_iff_get?.2 ⟨d, hget⟩)
        have hless := unvisited_insert_lt hmem hseen
        have hroom : unvisited catalog.names
            (⟨state.seen.insert name, state.done⟩ : Catalog.Ordering).seen.contains < fuel :=
          Nat.lt_of_lt_of_le hless (Nat.lt_succ_iff.1 hfuel)
        have hbelow := foldl_steps (fun state child rest hroom => ih child rest hroom)
          (fun state name => (visit_listed hc fuel state name).keeps) d.children
          (.leave d :: rest) hroom
        refine .head (.enter hseen hget) (hbelow.trans (.single ?_))
        dsimp only
        by_cases hleaf : d.isLeaf
        · rw [if_pos hleaf]
          exact .pass hleaf
        · rw [if_neg hleaf]
          exact .list hleaf

theorem reachable_steps (hc : catalog.Consistent) (roots : List String) :
    Relation.ReflTransGen catalog.TraversalStep (traversalFrom roots)
      ⟨roots.foldl (catalog.visit (catalog.size + 1)) ⟨∅, []⟩, []⟩ := by
  have hroom : unvisited catalog.names (⟨∅, []⟩ : Catalog.Ordering).seen.contains <
      catalog.size + 1 := by
    rw [← Consistent.length_names]
    exact Nat.lt_succ_of_le (unvisited_le_length _ _)
  have hsteps := foldl_steps (fun state name rest hroom => visit_steps hc name rest hroom)
    (fun state name => (visit_listed hc _ state name).keeps) roots [] hroom
  rwa [List.append_nil] at hsteps

/-! ## What is listed -/

/-- Listed are the entries of the catalog that can be reached from a root and need a
declaration, each of them once. A type stands behind the types of its handles, unless a
handle leads back to it. The search ends on every catalog, and ends with this list. -/
theorem reachable_dependency_order (types : List Descriptor) (roots : List String) :
    let catalog := Catalog.ofList types
    let listed := catalog.reachable roots
    (∀ d, d ∈ listed ↔ catalog.get? d.name = some d ∧ d.isLeaf = false ∧
      ∃ root ∈ roots, catalog.Reaches root d.name) ∧
    (listed.map Descriptor.name).Nodup ∧
    (∀ a ∈ listed, ∀ b, b.name ∈ a.children → catalog.get? b.name = some b →
      b.isLeaf = false → ¬ catalog.Reaches b.name a.name → [b, a].Sublist listed) ∧
    Acc (fun next now => catalog.TraversalStep now next) (traversalFrom roots) ∧
    ∃ last, Relation.ReflTransGen catalog.TraversalStep (traversalFrom roots) last ∧
      (∀ next, ¬ catalog.TraversalStep last next) ∧ listed = last.state.done.reverse := by
  intro catalog listed
  have hc : catalog.Consistent := Consistent.ofList types
  have hsteps := reachable_steps hc roots
  have hend : ∀ next, ¬ catalog.TraversalStep
      ⟨roots.foldl (catalog.visit (catalog.size + 1)) ⟨∅, []⟩, []⟩ next := by
    intro next hnext
    cases hnext
  refine ⟨fun d => ⟨fun hd => ?_, ?_⟩, nodup_reachable hc roots, ?_,
    acc_of_ends (traversalStep_rightUnique catalog) hsteps hend, _, hsteps, hend, rfl⟩
  · obtain ⟨hget, hleaf⟩ := get?_of_mem_reachable hc hd
    exact ⟨hget, hleaf, reaches_of_mem_reachable hc hd⟩
  · rintro ⟨hget, hleaf, root, hroot, hreaches⟩
    exact mem_reachable hc hroot hreaches hget hleaf
  · intro a ha b hchild hb hleaf hback
    have hordered := (settled_reachable hc roots).ordered
    have hsublist := hordered.sublist (List.mem_reverse.1 ha) hchild hb hleaf hback
    exact hsublist.reverse

end ScaleCalls.Catalog
