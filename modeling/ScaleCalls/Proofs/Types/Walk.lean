import ScaleCalls.Proofs.Types.Graph
import ScaleCalls.Proofs.Types.Vocabulary

/-!
# What a walk adds to a catalog

A walk enters a name before it follows the name's handles, so the catalog is not
closed while the walk is on its way. What holds all along is that entries are only
added, and that each entry is the descriptor of its name. A walk that comes to its end
has entered the handles of everything it added.

## Main statements

- `TypeTable.walk_invariant` — what every entered descriptor preserves, a walk preserves
- `TypeTable.walk_closes` — a walk closes over all that it adds
- `TypeTable.enter_closes` — so does entering a reference
-/

namespace ScaleCalls.TypeTable

variable {snapshot : Snapshot} {table : TypeTable} {catalog : Catalog} {name reference : String}

/-- A set of names that holds the handles of all its descriptors. -/
def ClosedUnder (table : TypeTable) (names : Set String) : Prop :=
  ∀ name ∈ names, ∀ child ∈ (table.describe name).children, child ∈ names

theorem contains_insert_describe (table : TypeTable) (catalog : Catalog) (name : String) :
    (catalog.insert (table.describe name)).contains name := by
  rw [Catalog.contains_insert, name_describe, beq_self_eq_true, Bool.true_or]

theorem unvisited_insert_lt (table : TypeTable) {names : List String} (hmem : name ∈ names)
    (hnew : ¬ catalog.contains name) :
    unvisited names (catalog.insert (table.describe name)).contains <
      unvisited names catalog.contains :=
  unvisited_lt (fun _ => Catalog.contains_insert_mono _) hmem hnew
    (contains_insert_describe table catalog name)

/-- What is preserved by entering any descriptor of a closed set of names is preserved
by a walk from a name of the set. -/
theorem walk_invariant {names : Set String} {P : Catalog → Prop}
    (hnames : table.ClosedUnder names)
    (hP : ∀ catalog name, name ∈ names → P catalog → P (catalog.insert (table.describe name)))
    (fuel : Nat) (hname : name ∈ names) (h : P catalog) : P (table.walk fuel catalog name) := by
  induction fuel generalizing catalog name with
  | zero => exact h
  | succ fuel ih =>
    rw [walk]
    split
    · exact h
    · have hself : P (catalog.insert (table.describe name)) := hP catalog name hname h
      exact List.foldlRecOn _ _ hself fun _ h child hchild => ih (hnames name hname child hchild) h

theorem closedUnder_univ (table : TypeTable) : table.ClosedUnder Set.univ :=
  fun _ _ _ _ => trivial

theorem consistent_walk (hc : catalog.Consistent) (fuel : Nat) (name : String) :
    (table.walk fuel catalog name).Consistent :=
  walk_invariant (closedUnder_univ table) (fun _ _ _ h => h.insert _) fuel trivial hc

theorem toList_prefix_walk (table : TypeTable) (fuel : Nat) (catalog : Catalog) (name : String) :
    catalog.toList <+: (table.walk fuel catalog name).toList := by
  apply walk_invariant (closedUnder_univ table)
    (P := fun after => catalog.toList <+: after.toList) _ fuel trivial List.prefix_rfl
  intro after name _ h
  by_cases hcontains : after.contains (table.describe name).name
  · rwa [Catalog.insert_of_contains hcontains]
  · rw [Catalog.toList_insert_of_not_contains hcontains]
    exact h.trans (List.prefix_append _ _)

/-- Each entry is the descriptor of its name. -/
def Describes (table : TypeTable) (catalog : Catalog) : Prop :=
  ∀ d ∈ catalog.toList, table.describe d.name = d

theorem describes_walk (h : table.Describes catalog) (fuel : Nat) (name : String) :
    table.Describes (table.walk fuel catalog name) := by
  apply walk_invariant (closedUnder_univ table) (P := table.Describes) _ fuel trivial h
  intro after name _ h
  by_cases hcontains : after.contains (table.describe name).name
  · rwa [Catalog.insert_of_contains hcontains]
  · intro d hd
    rw [Catalog.toList_insert_of_not_contains hcontains] at hd
    rcases List.mem_append.1 hd with hold | hnew
    · exact h d hold
    · rw [List.mem_singleton.1 hnew, name_describe]

theorem mem_of_contains_walk {names : Set String} (hnames : table.ClosedUnder names)
    (hcatalog : ∀ n, catalog.contains n → n ∈ names) (hname : name ∈ names) (fuel : Nat) :
    ∀ n, (table.walk fuel catalog name).contains n → n ∈ names := by
  apply walk_invariant hnames (P := fun after => ∀ n, after.contains n → n ∈ names) _ fuel
    hname hcatalog
  intro after other hother h n hn
  rw [Catalog.contains_insert, name_describe, Bool.or_eq_true, beq_iff_eq] at hn
  rcases hn with rfl | hn
  · exact hother
  · exact h n hn

/-- What a walk over several names leaves behind: the names are entered, and so are the
handles of every name that was not there before. -/
structure Walked (table : TypeTable) (before : Catalog) (names : List String)
    (after : Catalog) : Prop where
  keeps : ∀ name, before.contains name → after.contains name
  enters : ∀ name ∈ names, after.contains name
  closes : ∀ name, after.contains name → ¬ before.contains name →
    ∀ child ∈ (table.describe name).children, after.contains child

theorem Walked.nil (table : TypeTable) (catalog : Catalog) : table.Walked catalog [] catalog where
  keeps := fun _ h => h
  enters := by simp
  closes := fun _ h hnot => absurd h hnot

theorem Walked.cons {before middle after : Catalog} {name : String} {names : List String}
    (hfirst : table.Walked before [name] middle) (hrest : table.Walked middle names after) :
    table.Walked before (name :: names) after where
  keeps := fun n h => hrest.keeps n (hfirst.keeps n h)
  enters := by
    intro n hn
    rcases List.mem_cons.1 hn with rfl | hn
    · exact hrest.keeps _ (hfirst.enters _ (List.mem_singleton.2 rfl))
    · exact hrest.enters n hn
  closes := by
    intro n hafter hbefore child hchild
    by_cases hmiddle : middle.contains n
    · exact hrest.keeps child (hfirst.closes n hmiddle hbefore child hchild)
    · exact hrest.closes n hafter hmiddle child hchild

/-- Names of a vocabulary are walked one after the other, with ever fewer names left, if
each of them is walked wherever there are few enough. -/
theorem Walked.foldl {step : Catalog → String → Catalog} {vocabulary names : List String}
    {room : Nat} (hstep : ∀ catalog name, name ∈ vocabulary →
      unvisited vocabulary catalog.contains < room →
        table.Walked catalog [name] (step catalog name))
    (hnames : ∀ name ∈ names, name ∈ vocabulary)
    (hroom : unvisited vocabulary catalog.contains < room) :
    table.Walked catalog names (names.foldl step catalog) := by
  induction names generalizing catalog with
  | nil => exact Walked.nil table catalog
  | cons name rest ih =>
    have hfirst := hstep catalog name (hnames name List.mem_cons_self) hroom
    refine hfirst.cons (ih (fun n hn => hnames n (List.mem_cons_of_mem _ hn)) ?_)
    exact Nat.lt_of_le_of_lt (unvisited_mono hfirst.keeps) hroom

/-- A walk closes over all that it adds, if it may go deeper than there are names left
to enter. The induction is on the depth; the names left bound it. -/
theorem walk_closes {vocabulary : List String}
    (hclosed : table.ClosedUnder {n | n ∈ vocabulary}) {fuel : Nat}
    (hname : name ∈ vocabulary) (hfuel : unvisited vocabulary catalog.contains < fuel) :
    table.Walked catalog [name] (table.walk fuel catalog name) := by
  induction fuel generalizing catalog name with
  | zero => omega
  | succ fuel ih =>
    rw [walk]
    by_cases hcontains : catalog.contains name
    · rw [if_pos hcontains]
      exact ⟨fun _ h => h, by simpa using hcontains, fun _ h hnot => absurd h hnot⟩
    · rw [if_neg hcontains]
      -- the name is entered before its handles, so these are walked with one name less left
      have hless := unvisited_insert_lt table hname hcontains
      have hrest := Walked.foldl (fun _ _ hname hroom => ih hname hroom) (hclosed name hname)
        (show unvisited vocabulary (catalog.insert (table.describe name)).contains < fuel by omega)
      refine ⟨fun n hn => hrest.keeps n (Catalog.contains_insert_mono _ hn), ?_, ?_⟩
      · intro n hn
        rw [List.mem_singleton.1 hn]
        exact hrest.keeps name (contains_insert_describe table catalog name)
      · intro n hafter hbefore child hchild
        by_cases hn : (catalog.insert (table.describe name)).contains n
        · -- the name itself: it was entered before its handles
          rw [Catalog.contains_insert, name_describe, Bool.or_eq_true, beq_iff_eq] at hn
          obtain rfl := hn.resolve_right hbefore
          exact hrest.enters child hchild
        · exact hrest.closes n hafter hn child hchild

/-! ## Entering a reference -/

theorem closedUnder_vocabulary (snapshot : Snapshot) (reference : String) :
    (ofSnapshot snapshot).ClosedUnder {n | n ∈ vocabulary snapshot reference} :=
  fun _ hname _ hchild => child_mem_vocabulary hname hchild

/-- Entering a reference may go deeper than there are names that it can meet. -/
theorem unvisited_vocabulary_lt (snapshot : Snapshot) (catalog : Catalog) (reference : String) :
    unvisited (vocabulary snapshot reference) catalog.contains <
      (ofSnapshot snapshot).bound + nestingBound reference + 1 :=
  Nat.lt_succ_of_le ((unvisited_le_length _ _).trans (length_vocabulary_le snapshot reference))

/-- Entering a reference has room for everything that it can meet. -/
theorem enter_closes (snapshot : Snapshot) (catalog : Catalog) (reference : String) :
    (ofSnapshot snapshot).Walked catalog [(ofSnapshot snapshot).handle reference]
      ((ofSnapshot snapshot).enter catalog reference) :=
  walk_closes (closedUnder_vocabulary snapshot reference)
    (handle_reference_mem_vocabulary snapshot reference)
    (unvisited_vocabulary_lt snapshot catalog reference)

theorem consistent_enter (hc : catalog.Consistent) (reference : String) :
    (table.enter catalog reference).Consistent :=
  consistent_walk hc _ _

theorem get?_enter_of_get? {d : Descriptor} (hc : catalog.Consistent)
    (h : catalog.get? name = some d) (reference : String) :
    (table.enter catalog reference).get? name = some d := by
  rw [(consistent_enter hc reference).get?_eq_some]
  obtain ⟨hd, hname⟩ := hc.get?_eq_some.1 h
  exact ⟨(toList_prefix_walk table _ catalog _).subset hd, hname⟩

theorem enter_of_contains (h : catalog.contains (table.handle reference)) :
    table.enter catalog reference = catalog := by
  simp [enter, walk, h]

end ScaleCalls.TypeTable
