import ScaleCalls.Proofs.Types.ClosedGraph

/-!
# Resolving types ends

A walk is given a depth, and what it leaves behind would mean little if it could be cut off
there. This module has the same search without any bound: a catalog and the names that wait,
of which the first is taken in each step. A name that has an entry is dropped; any other is
entered, and its handles are put in front of the rest.

The number of waiting names goes up and down, and a handle may be a longer text than the name
that it stands in. What goes down is the number of names left to enter: all names that can
turn up lie in one finite list, and each of them is entered once. So every sequence of steps
ends, and it ends with the catalog that the bounded walks make.

## Main definitions

- `TypeTable.Step` — one step of the search
- `TypeTable.vocabularyOf` — the names that can turn up under some references

## Main statements

- `TypeTable.Step.remaining_lt` — what a step makes smaller
- `TypeTable.walk_steps` — a walk with enough depth is a sequence of steps
- `TypeTable.resolution_ends` — resolving references ends, and with what
-/

namespace ScaleCalls.TypeTable

/-- A search on its way: the catalog so far, and the names that wait, the next one first. -/
structure Search where
  catalog : Catalog
  waiting : List String

/-- The next name has an entry already, or it is entered and its handles are next. -/
inductive Step (table : TypeTable) : Search → Search → Prop
  | found {catalog : Catalog} {name : String} {rest : List String} (h : catalog.contains name) :
      Step table ⟨catalog, name :: rest⟩ ⟨catalog, rest⟩
  | enter {catalog : Catalog} {name : String} {rest : List String}
      (h : ¬ catalog.contains name) : Step table ⟨catalog, name :: rest⟩
        ⟨catalog.insert (table.describe name), (table.describe name).children ++ rest⟩

/-- One search leads to another by some number of steps. -/
def Steps (table : TypeTable) : Search → Search → Prop := Relation.ReflTransGen table.Step

/-- The search for some references, which are resolved one after the other. -/
def searchFor (table : TypeTable) (references : List String) : Search :=
  ⟨Catalog.empty, references.map table.handle⟩

/-- All names that can turn up under some references. -/
def vocabularyOf (snapshot : Snapshot) (references : List String) : List String :=
  references.flatMap (vocabulary snapshot)

variable {snapshot : Snapshot} {table : TypeTable} {catalog : Catalog} {now next : Search}
  {names : List String} {name reference : String}

theorem closedUnder_vocabularyOf (snapshot : Snapshot) (references : List String) :
    (ofSnapshot snapshot).ClosedUnder {n | n ∈ vocabularyOf snapshot references} := by
  intro name hname child hchild
  obtain ⟨reference, hreference, hname⟩ := List.mem_flatMap.1 hname
  exact List.mem_flatMap.2 ⟨reference, hreference, child_mem_vocabulary hname hchild⟩

theorem handle_mem_vocabularyOf {references : List String} (h : reference ∈ references) :
    (ofSnapshot snapshot).handle reference ∈ vocabularyOf snapshot references :=
  List.mem_flatMap.2 ⟨reference, h, handle_reference_mem_vocabulary snapshot reference⟩

/-! ## Single steps -/

theorem Step.deterministic {next' : Search} (h : table.Step now next) (h' : table.Step now next') :
    next = next' := by
  cases h with
  | found h =>
    cases h' with
    | found => rfl
    | enter h' => exact absurd h h'
  | enter h =>
    cases h' with
    | found h' => exact absurd h' h
    | enter => rfl

/-- Only names of a closed set wait, as long as it was so before. -/
theorem Step.waiting_mem (hclosed : table.ClosedUnder {n | n ∈ names}) (h : table.Step now next)
    (hwaiting : ∀ n ∈ now.waiting, n ∈ names) : ∀ n ∈ next.waiting, n ∈ names := by
  cases h with
  | found => exact fun n hn => hwaiting n (List.mem_cons_of_mem _ hn)
  | enter =>
    intro n hn
    rcases List.mem_append.1 hn with hchild | hrest
    · exact hclosed _ (hwaiting _ List.mem_cons_self) n hchild
    · exact hwaiting n (List.mem_cons_of_mem _ hrest)

/-- A step stops at the catalog, or it adds the name as a new entry at the end. -/
theorem Step.found_or_enter (h : table.Step now next) :
    ∃ name, now.waiting.head? = some name ∧
      (now.catalog.contains name ∧ next.catalog = now.catalog ∨
        ¬ now.catalog.contains name ∧ next.catalog.names = now.catalog.names ++ [name]) := by
  cases h with
  | found h => exact ⟨_, rfl, .inl ⟨h, rfl⟩⟩
  | @enter catalog name rest h =>
    have hnew : ¬ catalog.contains (table.describe name).name := by rwa [name_describe]
    refine ⟨name, rfl, .inr ⟨h, ?_⟩⟩
    rw [Catalog.names, Catalog.toList_insert_of_not_contains hnew, List.map_append, List.map_cons,
      name_describe]
    rfl

/-- How many names are left to enter, and how many wait. -/
def remaining (names : List String) (search : Search) : Nat × Nat :=
  (unvisited names search.catalog.contains, search.waiting.length)

/-- A step leaves fewer names to enter, or it leaves as many and fewer wait. -/
theorem Step.remaining_lt (h : table.Step now next) (hwaiting : ∀ n ∈ now.waiting, n ∈ names) :
    Prod.Lex Nat.lt Nat.lt (remaining names next) (remaining names now) := by
  cases h with
  | found => exact .right _ (Nat.lt_succ_self _)
  | @enter catalog name rest h =>
    exact .left _ _ (unvisited_insert_lt table (hwaiting name List.mem_cons_self) h)

/-! ## All steps together -/

/-- From names of a closed set no endless sequence of steps starts. -/
theorem acc_step (hclosed : table.ClosedUnder {n | n ∈ names}) (now : Search)
    (hwaiting : ∀ n ∈ now.waiting, n ∈ names) : Acc (fun next now => table.Step now next) now := by
  have hwf : WellFounded (Prod.Lex Nat.lt Nat.lt) := (Prod.lex Nat.lt_wfRel Nat.lt_wfRel).wf
  induction hleft : remaining names now using hwf.induction generalizing now with
  | _ left ih =>
    subst hleft
    exact ⟨now, fun next hstep => ih _ (hstep.remaining_lt hwaiting) next
      (hstep.waiting_mem hclosed hwaiting) rfl⟩

theorem waiting_mem_of_steps (hclosed : table.ClosedUnder {n | n ∈ names}) {start : Search}
    (h : table.Steps start now) (hstart : ∀ n ∈ start.waiting, n ∈ names) :
    ∀ n ∈ now.waiting, n ∈ names := by
  induction h with
  | refl => exact hstart
  | tail _ hstep ih => exact hstep.waiting_mem hclosed ih

/-- Names are walked one after the other in as many steps as it takes, if each of them is. -/
theorem foldl_steps {step : Catalog → String → Catalog} {waiting rest : List String}
    {room : Nat} (hstep : ∀ catalog name, name ∈ names → unvisited names catalog.contains < room →
      ∀ rest, table.Steps ⟨catalog, name :: rest⟩ ⟨step catalog name, rest⟩)
    (hkeep : ∀ catalog name n, catalog.contains n → (step catalog name).contains n)
    (hwaiting : ∀ n ∈ waiting, n ∈ names) (hroom : unvisited names catalog.contains < room) :
    table.Steps ⟨catalog, waiting ++ rest⟩ ⟨waiting.foldl step catalog, rest⟩ := by
  induction waiting generalizing catalog with
  | nil => exact .refl
  | cons name waiting ih =>
    have hfirst := hstep catalog name (hwaiting name List.mem_cons_self) hroom (waiting ++ rest)
    refine hfirst.trans (ih (fun n hn => hwaiting n (List.mem_cons_of_mem _ hn)) ?_)
    exact Nat.lt_of_le_of_lt (unvisited_mono (hkeep catalog name)) hroom

theorem contains_walk (fuel : Nat) (name n : String) (h : catalog.contains n) :
    (table.walk fuel catalog name).contains n :=
  walk_invariant (closedUnder_univ table) (P := fun after => after.contains n)
    (fun _ _ _ => Catalog.contains_insert_mono _) fuel trivial h

/-- A walk that may go deeper than there are names left to enter is a sequence of steps. -/
theorem walk_steps (hclosed : table.ClosedUnder {n | n ∈ names}) {fuel : Nat}
    (hname : name ∈ names) (hfuel : unvisited names catalog.contains < fuel) (rest : List String) :
    table.Steps ⟨catalog, name :: rest⟩ ⟨table.walk fuel catalog name, rest⟩ := by
  induction fuel generalizing catalog name rest with
  | zero => exact absurd hfuel (Nat.not_lt_zero _)
  | succ fuel ih =>
    rw [walk]
    by_cases hcontains : catalog.contains name
    · rw [if_pos hcontains]
      exact .single (.found hcontains)
    · rw [if_neg hcontains]
      have hless := unvisited_insert_lt table hname hcontains
      -- the handles are walked with one name less left to enter
      refine .head (.enter hcontains) (foldl_steps (fun catalog name hname hroom rest =>
        ih hname hroom rest) (fun catalog name n => contains_walk fuel name n)
        (hclosed name hname) ?_)
      omega

theorem enter_steps (snapshot : Snapshot) (catalog : Catalog) (reference : String)
    (rest : List String) :
    (ofSnapshot snapshot).Steps ⟨catalog, (ofSnapshot snapshot).handle reference :: rest⟩
      ⟨(ofSnapshot snapshot).enter catalog reference, rest⟩ :=
  walk_steps (closedUnder_vocabulary snapshot reference)
    (handle_reference_mem_vocabulary snapshot reference)
    (unvisited_vocabulary_lt snapshot catalog reference) rest

theorem catalogOf_steps (snapshot : Snapshot) (references : List String) :
    (ofSnapshot snapshot).Steps ((ofSnapshot snapshot).searchFor references)
      ⟨(ofSnapshot snapshot).catalogOf references, []⟩ := by
  have run : ∀ (references : List String) (start : Catalog), (ofSnapshot snapshot).Steps
      ⟨start, references.map (ofSnapshot snapshot).handle⟩
      ⟨references.foldl (ofSnapshot snapshot).enter start, []⟩ := by
    intro references
    induction references with
    | nil => exact fun start => .refl
    | cons reference rest ih =>
      intro start
      exact (enter_steps snapshot start reference _).trans (ih _)
  exact run references Catalog.empty

/-- A handle of a container is a shorter text than the name around it, or the name of an entry. -/
theorem length_lt_or_canonicalName {elem : String}
    (h : ((ofSnapshot snapshot).describe name).kind.element? = some elem) :
    elem.length < name.length ∨ ∃ entry ∈ snapshot.types, elem = entry.canonicalName := by
  obtain ⟨text, htext, rfl⟩ := exists_of_element?_describe h
  obtain hentry | hsame := handle_eq snapshot text
  · exact .inr hentry
  · rw [hsame, TypeName.stripBlanks_of_element? htext]
    exact .inl (TypeName.length_lt_of_element? htext)

/-- Resolving references one after the other ends, whatever the entries of a snapshot are. No
endless sequence of steps starts from them; the steps lead to the catalog of the references,
and to no other end. All that ever waits lies in a finite list of names; each step stops at
the catalog or enters a new name of this list; and the element of a container is a shorter
text or the name of an entry. -/
theorem resolution_ends (snapshot : Snapshot) (references : List String) :
    let table := ofSnapshot snapshot
    let start := table.searchFor references
    let names := vocabularyOf snapshot references
    Acc (fun next now => table.Step now next) start ∧
    table.Steps start ⟨table.catalogOf references, []⟩ ∧
    (∀ now, table.Steps start now →
      ((∀ next, ¬ table.Step now next) → now = ⟨table.catalogOf references, []⟩) ∧
      (∀ name ∈ now.waiting, name ∈ names) ∧
      ∀ next, table.Step now next → ∃ name ∈ names, now.waiting.head? = some name ∧
        (now.catalog.contains name ∧ next.catalog = now.catalog ∨
          ¬ now.catalog.contains name ∧ next.catalog.names = now.catalog.names ++ [name])) ∧
    ∀ name elem, (table.describe name).kind.element? = some elem →
      elem.length < name.length ∨ ∃ entry ∈ snapshot.types, elem = entry.canonicalName := by
  intro table start names
  have hclosed : table.ClosedUnder {n | n ∈ names} := closedUnder_vocabularyOf snapshot references
  have hstart : ∀ n ∈ start.waiting, n ∈ names := by
    intro n hn
    obtain ⟨reference, hreference, rfl⟩ := List.mem_map.1 hn
    exact handle_mem_vocabularyOf hreference
  have hend := catalogOf_steps snapshot references
  refine ⟨acc_step hclosed start hstart, hend, fun now hnow => ?_,
    fun name elem => length_lt_or_canonicalName⟩
  have hwaiting := waiting_mem_of_steps hclosed hnow hstart
  refine ⟨fun hstuck => ?_, hwaiting, fun next hnext => ?_⟩
  · -- of two runs from one start, one goes on where the other one ends
    obtain hlater | hearlier := Relation.ReflTransGen.total_of_right_unique
      (fun _ _ _ h h' => h.deterministic h') hnow hend
    · obtain heq | ⟨next, hnext, -⟩ := hlater.cases_head
      · exact heq
      · exact absurd hnext (hstuck next)
    · obtain heq | ⟨next, hnext, -⟩ := hearlier.cases_head
      · exact heq.symm
      · cases hnext
  · obtain ⟨name, hhead, hstep⟩ := hnext.found_or_enter
    exact ⟨name, hwaiting name (List.mem_of_mem_head? hhead), hhead, hstep⟩

end ScaleCalls.TypeTable
