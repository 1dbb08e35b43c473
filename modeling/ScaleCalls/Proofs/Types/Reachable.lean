import ScaleCalls.Proofs.Types.Graph
import ScaleCalls.Types.Search

/-!
# The types to declare are all there

The search for the types to declare marks a name before it follows the handles behind
it, and it marks every name once. When it comes to its end, every handle of a marked
type is marked too, and every marked type that needs a declaration is listed.

## Main statements

- `Catalog.visit_explores` — what one search leaves behind
- `Catalog.mem_reachable` — every type along any number of handles is listed
- `Catalog.get?_of_mem_reachable` — whatever is listed is an entry of the catalog
- `Catalog.reaches_of_mem_reachable` — and can be reached from a root
- `Catalog.nodup_reachable` — nothing is listed twice
-/

namespace ScaleCalls.Catalog

variable {catalog : Catalog} {roots : List String} {name : String} {d : Descriptor}

/-- What a search from several names adds to a state: the names are seen, nothing is
forgotten, and a type that was not seen before has its handles seen and is listed. -/
structure Explored (catalog : Catalog) (before : Catalog.Ordering) (names : List String)
    (after : Catalog.Ordering) : Prop where
  keeps : ∀ name, before.seen.contains name → after.seen.contains name
  lists : ∀ d ∈ before.done, d ∈ after.done
  enters : ∀ name ∈ names, after.seen.contains name
  closes : ∀ name d, after.seen.contains name → ¬ before.seen.contains name →
    catalog.get? name = some d →
      (∀ child ∈ d.children, after.seen.contains child) ∧ (d.isLeaf = false → d ∈ after.done)

theorem Explored.nil (catalog : Catalog) (state : Catalog.Ordering) :
    catalog.Explored state [] state where
  keeps := fun _ h => h
  lists := fun _ h => h
  enters := by simp
  closes := fun _ _ h hnot => absurd h hnot

theorem Explored.cons {before middle after : Catalog.Ordering} {names : List String}
    (hfirst : catalog.Explored before [name] middle)
    (hrest : catalog.Explored middle names after) :
    catalog.Explored before (name :: names) after where
  keeps := fun n h => hrest.keeps n (hfirst.keeps n h)
  lists := fun d h => hrest.lists d (hfirst.lists d h)
  enters := by
    intro n hn
    rcases List.mem_cons.1 hn with rfl | hn
    · exact hrest.keeps _ (hfirst.enters _ (List.mem_singleton.2 rfl))
    · exact hrest.enters n hn
  closes := by
    intro n d hafter hbefore hd
    by_cases hmiddle : middle.seen.contains n
    · obtain ⟨hchildren, hlisted⟩ := hfirst.closes n d hmiddle hbefore hd
      exact ⟨fun c hc => hrest.keeps c (hchildren c hc), fun h => hrest.lists d (hlisted h)⟩
    · exact hrest.closes n d hafter hmiddle hd

theorem contains_insert_seen {seen : Visited} {a b : String} :
    (seen.insert a).contains b = (a == b || seen.contains b) := by
  simp [Std.TreeSet.contains_insert, BEq.beq, Std.LawfulEqCmp.compare_eq_iff_eq]

theorem contains_insert_of_contains {seen : Visited} {n : String} (name : String)
    (h : seen.contains n) : (seen.insert name).contains n := by
  rw [contains_insert_seen, h, Bool.or_true]

theorem unvisited_insert_le (names : List String) (seen : Visited) (name : String) :
    unvisited names (seen.insert name).contains ≤ unvisited names seen.contains :=
  unvisited_mono fun _ hn => contains_insert_of_contains name hn

theorem unvisited_insert_lt {names : List String} {seen : Visited} (hmem : name ∈ names)
    (hnew : ¬ seen.contains name) :
    unvisited names (seen.insert name).contains < unvisited names seen.contains :=
  unvisited_lt (fun _ hn => contains_insert_of_contains name hn) hmem hnew (by simp)

/-- Names are explored one after the other, with ever fewer names left to see, if each of
them is explored wherever there are few enough. -/
theorem Explored.foldl {step : Catalog.Ordering → String → Catalog.Ordering} {room : Nat}
    (hstep : ∀ state name, unvisited catalog.names state.seen.contains < room →
      catalog.Explored state [name] (step state name))
    (names : List String) {state : Catalog.Ordering}
    (hroom : unvisited catalog.names state.seen.contains < room) :
    catalog.Explored state names (names.foldl step state) := by
  induction names generalizing state with
  | nil => exact Explored.nil catalog state
  | cons name rest ih =>
    have hfirst := hstep state name hroom
    exact hfirst.cons (ih (Nat.lt_of_le_of_lt (unvisited_mono hfirst.keeps) hroom))

/-- A search explores what is under a name, if it may go deeper than there are names of
the catalog left to see. -/
theorem visit_explores (hc : catalog.Consistent) {fuel : Nat} {state : Catalog.Ordering}
    (hfuel : unvisited catalog.names state.seen.contains < fuel) (name : String) :
    catalog.Explored state [name] (catalog.visit fuel state name) := by
  induction fuel generalizing state name with
  | zero => omega
  | succ fuel ih =>
    rw [visit]
    by_cases hseen : state.seen.contains name
    · rw [if_pos hseen]
      exact ⟨fun _ h => h, fun _ h => h, by simpa using hseen, fun _ _ h hnot => absurd h hnot⟩
    · rw [if_neg hseen]
      have hkeep : ∀ n, state.seen.contains n → (state.seen.insert name).contains n :=
        fun _ hn => contains_insert_of_contains name hn
      have hself : (state.seen.insert name).contains name := by simp
      cases hget : catalog.get? name with
      | none =>
        -- a handle without an entry is marked, and there is nothing to list or follow
        refine ⟨hkeep, fun _ h => h, by simp, ?_⟩
        intro n d hafter hbefore hd
        rw [contains_insert_seen, Bool.or_eq_true, beq_iff_eq] at hafter
        obtain rfl := hafter.resolve_right hbefore
        rw [hget] at hd
        cases hd
      | some e =>
        have hmem : name ∈ catalog.names := hc.mem_names.2 (hc.contains_iff_get?.2 ⟨e, hget⟩)
        have hless := unvisited_insert_lt hmem hseen
        have hroom : unvisited catalog.names (state.seen.insert name).contains < fuel := by
          omega
        have hbelow : catalog.Explored ⟨state.seen.insert name, state.done⟩ e.children
            (e.children.foldl (catalog.visit fuel) ⟨state.seen.insert name, state.done⟩) :=
          Explored.foldl (fun _ child hroom => ih hroom child) e.children hroom
        generalize hstate : e.children.foldl (catalog.visit fuel)
          ⟨state.seen.insert name, state.done⟩ = below at hbelow
        -- the type itself is listed last, and only if it needs a declaration
        have hfinal : ∀ after : Catalog.Ordering, after.seen = below.seen →
            (∀ d ∈ below.done, d ∈ after.done) → (e.isLeaf = false → e ∈ after.done) →
              catalog.Explored state [name] after := by
          rintro ⟨seen, done⟩ rfl hdone he
          refine ⟨fun n hn => hbelow.keeps n (hkeep n hn),
            fun d hd => hdone d (hbelow.lists d hd), ?_, ?_⟩
          · intro n hn
            rw [List.mem_singleton.1 hn]
            exact hbelow.keeps name hself
          · intro n d hafter hbefore hd
            by_cases hn : (state.seen.insert name).contains n
            · rw [contains_insert_seen, Bool.or_eq_true, beq_iff_eq] at hn
              obtain rfl := hn.resolve_right hbefore
              rw [hget] at hd
              cases hd
              exact ⟨hbelow.enters, he⟩
            · obtain ⟨hchildren, hlisted⟩ := hbelow.closes n d hafter hn hd
              exact ⟨hchildren, fun h => hdone d (hlisted h)⟩
        simp only [hstate]
        split
        · rename_i hleaf
          exact hfinal below rfl (fun _ h => h) (fun h => by simp [h] at hleaf)
        · exact hfinal _ rfl (fun _ h => List.mem_cons_of_mem _ h) (fun _ => List.mem_cons_self)

/-- The search over all roots. -/
theorem reachable_explores (hc : catalog.Consistent) (roots : List String) :
    catalog.Explored ⟨∅, []⟩ roots
      (roots.foldl (catalog.visit (catalog.size + 1)) ⟨∅, []⟩) := by
  refine Explored.foldl (fun _ root hroom => visit_explores hc hroom root) roots ?_
  rw [← Consistent.length_names]
  exact Nat.lt_succ_of_le (unvisited_le_length _ _)

/-- Every type that can be reached from the roots and needs a declaration is listed. -/
theorem mem_reachable (hc : catalog.Consistent) {root : String} (hroot : root ∈ roots)
    (hreaches : catalog.Reaches root name) (hd : catalog.get? name = some d)
    (hleaf : d.isLeaf = false) : d ∈ catalog.reachable roots := by
  have hexplored := reachable_explores hc roots
  generalize hafter : roots.foldl (catalog.visit (catalog.size + 1)) ⟨∅, []⟩ = after at hexplored
  have hclosed : catalog.Closed {n | after.seen.contains n} := by
    rintro n hn child ⟨e, he, hchild⟩
    exact (hexplored.closes n e hn (by simp) he).1 child hchild
  have hseen : after.seen.contains name :=
    hclosed.mem_of_reaches (hexplored.enters root hroot) hreaches
  rw [reachable, hafter, List.mem_reverse]
  exact (hexplored.closes name d hseen (by simp) hd).2 hleaf

/-- Whatever is listed is an entry of the catalog that needs a declaration. -/
def Ordering.Sound (catalog : Catalog) (state : Catalog.Ordering) : Prop :=
  ∀ d ∈ state.done, catalog.get? d.name = some d ∧ d.isLeaf = false

/-- A search lists only entries, and does not leave a closed set of names. -/
theorem visit_within {names : Set String} (hc : catalog.Consistent)
    (hclosed : catalog.Closed names) (fuel : Nat) {state : Catalog.Ordering}
    (hstate : state.Sound catalog ∧ ∀ d ∈ state.done, d.name ∈ names) {name : String}
    (hname : name ∈ names) :
    (catalog.visit fuel state name).Sound catalog ∧
      ∀ d ∈ (catalog.visit fuel state name).done, d.name ∈ names := by
  induction fuel generalizing state name with
  | zero => exact hstate
  | succ fuel ih =>
    rw [visit]
    split
    · exact hstate
    · split
      · exact hstate
      · rename_i e hget
        have hbelow : (e.children.foldl (catalog.visit fuel)
              ⟨state.seen.insert name, state.done⟩).Sound catalog ∧
            ∀ d ∈ (e.children.foldl (catalog.visit fuel)
              ⟨state.seen.insert name, state.done⟩).done, d.name ∈ names :=
          List.foldlRecOn (motive := fun state : Catalog.Ordering =>
            state.Sound catalog ∧ ∀ d ∈ state.done, d.name ∈ names) _ _ hstate
              fun _ h child hchild => ih h (hclosed name hname child ⟨e, hget, hchild⟩)
        split
        · exact hbelow
        · rename_i hleaf
          obtain rfl := hc.name_of_get? hget
          exact ⟨List.forall_mem_cons.2 ⟨⟨hget, by simpa using hleaf⟩, hbelow.1⟩,
            List.forall_mem_cons.2 ⟨hname, hbelow.2⟩⟩

theorem reachable_within (hc : catalog.Consistent) (h : d ∈ catalog.reachable roots) :
    (catalog.get? d.name = some d ∧ d.isLeaf = false) ∧
      ∃ root ∈ roots, catalog.Reaches root d.name := by
  have hclosed : catalog.Closed {name | ∃ root ∈ roots, catalog.Reaches root name} := by
    rintro name ⟨root, hroot, hreaches⟩ child hrefers
    exact ⟨root, hroot, hreaches.tail hrefers⟩
  have hwithin := List.foldlRecOn (motive := fun state : Catalog.Ordering =>
      state.Sound catalog ∧
        ∀ d ∈ state.done, d.name ∈ {name | ∃ root ∈ roots, catalog.Reaches root name})
    roots (catalog.visit (catalog.size + 1)) (b := ⟨∅, []⟩) (by simp [Ordering.Sound])
    fun _ hstate root hroot => visit_within hc hclosed _ hstate ⟨root, hroot, .refl⟩
  rw [reachable, List.mem_reverse] at h
  exact ⟨hwithin.1 d h, hwithin.2 d h⟩

theorem get?_of_mem_reachable (hc : catalog.Consistent) (h : d ∈ catalog.reachable roots) :
    catalog.get? d.name = some d ∧ d.isLeaf = false :=
  (reachable_within hc h).1

/-- Whatever is listed can be reached from a root. -/
theorem reaches_of_mem_reachable (hc : catalog.Consistent) (h : d ∈ catalog.reachable roots) :
    ∃ root ∈ roots, catalog.Reaches root d.name :=
  (reachable_within hc h).2

/-- What one search adds to a list without repetitions: types that were not seen, each
once. -/
structure Listed (before after : Catalog.Ordering) : Prop where
  keeps : ∀ name, before.seen.contains name → after.seen.contains name
  fresh : ∀ d ∈ after.done, before.seen.contains d.name → d ∈ before.done
  seen : (∀ d ∈ before.done, before.seen.contains d.name) →
    ∀ d ∈ after.done, after.seen.contains d.name
  nodup : (before.done.map Descriptor.name).Nodup →
    (∀ d ∈ before.done, before.seen.contains d.name) → (after.done.map Descriptor.name).Nodup

theorem Listed.refl (state : Catalog.Ordering) : Listed state state :=
  ⟨fun _ h => h, fun _ h _ => h, fun h => h, fun h _ => h⟩

theorem Listed.trans {before middle after : Catalog.Ordering} (hfirst : Listed before middle)
    (hrest : Listed middle after) : Listed before after where
  keeps := fun name h => hrest.keeps name (hfirst.keeps name h)
  fresh := fun d hd h => hfirst.fresh d (hrest.fresh d hd (hfirst.keeps _ h)) h
  seen := fun h => hrest.seen (hfirst.seen h)
  nodup := fun hnodup hseen => hrest.nodup (hfirst.nodup hnodup hseen) (hfirst.seen hseen)

theorem visit_listed (hc : catalog.Consistent) (fuel : Nat) (state : Catalog.Ordering)
    (name : String) : Listed state (catalog.visit fuel state name) := by
  induction fuel generalizing state name with
  | zero => exact Listed.refl state
  | succ fuel ih =>
    rw [visit]
    split
    · exact Listed.refl state
    · rename_i hnew
      have hkeep : ∀ n, state.seen.contains n → (state.seen.insert name).contains n :=
        fun _ hn => contains_insert_of_contains name hn
      have hmark : Listed state ⟨state.seen.insert name, state.done⟩ :=
        ⟨hkeep, fun _ h _ => h, fun h d hd => hkeep _ (h d hd), fun h _ => h⟩
      split
      · exact hmark
      · rename_i e hget
        have hbelow : Listed ⟨state.seen.insert name, state.done⟩
            (e.children.foldl (catalog.visit fuel) ⟨state.seen.insert name, state.done⟩) :=
          List.foldlRecOn _ _ (Listed.refl _) fun _ h child _ => h.trans (ih _ child)
        have hself : (state.seen.insert name).contains e.name := by
          simp [hc.name_of_get? hget]
        generalize e.children.foldl (catalog.visit fuel)
          ⟨state.seen.insert name, state.done⟩ = below at hbelow
        have hall := hmark.trans hbelow
        split
        · exact hall
        · refine ⟨hall.keeps, ?_, ?_, ?_⟩
          · intro d hd hseen
            rcases List.mem_cons.1 hd with rfl | hd
            · rw [hc.name_of_get? hget] at hseen
              exact absurd hseen hnew
            · exact hall.fresh d hd hseen
          · intro hseen d hd
            rcases List.mem_cons.1 hd with rfl | hd
            · exact hbelow.keeps _ hself
            · exact hall.seen hseen d hd
          · intro hnodup hseen
            rw [List.map_cons, List.nodup_cons]
            refine ⟨fun hmem => ?_, hall.nodup hnodup hseen⟩
            -- what is listed below under this name was listed before, but the name is new
            obtain ⟨d, hd, hname⟩ := List.mem_map.1 hmem
            have hold := hseen d (hbelow.fresh d hd (hname ▸ hself))
            rw [hname, hc.name_of_get? hget] at hold
            exact hnew hold

/-- No type is listed twice. -/
theorem nodup_reachable (hc : catalog.Consistent) (roots : List String) :
    ((catalog.reachable roots).map Descriptor.name).Nodup := by
  have hlisted : Listed ⟨∅, []⟩ (roots.foldl (catalog.visit (catalog.size + 1)) ⟨∅, []⟩) :=
    List.foldlRecOn _ _ (Listed.refl _) fun _ h root _ => h.trans (visit_listed hc _ _ root)
  rw [reachable, List.map_reverse, List.nodup_reverse]
  exact hlisted.nodup List.nodup_nil (by simp)

end ScaleCalls.Catalog
