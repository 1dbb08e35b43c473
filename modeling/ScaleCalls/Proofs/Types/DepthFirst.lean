import Mathlib.Data.Set.Insert
import ScaleCalls.Proofs.Types.Reachable

/-!
# The search for an unsupported type goes in depth-first order

`Catalog.DepthFirst` says in which order a depth-first visit comes to the names of a
catalog: the names that are waiting are taken from the front, and the handles of a new
name go in front of the others. The search for an unsupported type follows this order
and stops at the first name that has a fault.

## Main definitions

- `Catalog.fault?`, `Catalog.offence?` — what is wrong with the type of a name itself
- `Catalog.DepthFirst` — the order of a depth-first visit
- `Catalog.Blocked` — a name that leads to a fault

## Main statements

- `Catalog.exists_order_firstUnsupported?` — the search finds the first name with a fault in
  depth-first order
- `Catalog.isSome_firstUnsupported?` — it finds one exactly where there is one to find
-/

namespace ScaleCalls.Catalog

variable {catalog : Catalog} {seen : Visited} {name : String} {names rest order : List String}

/-- What is wrong with the type of this name itself, whatever it refers to. -/
def fault? (catalog : Catalog) (name : String) : Option TypeFault :=
  match catalog.kindOf name with
  | .unsupported fault => some fault
  | _ => none

/-- The name together with what is wrong with its type. -/
def offence? (catalog : Catalog) (name : String) : Option Offence :=
  (catalog.fault? name).map (Offence.mk name)

/-- A visit that has seen some names, and has others waiting, goes on in this order. -/
inductive DepthFirst (catalog : Catalog) : Set String → List String → List String → Prop
  | done (seen : Set String) : DepthFirst catalog seen [] []
  | skip {seen : Set String} {name : String} {rest order : List String} (h : name ∈ seen)
      (hrest : DepthFirst catalog seen rest order) : DepthFirst catalog seen (name :: rest) order
  | enter {seen : Set String} {name : String} {rest order : List String} (h : name ∉ seen)
      (hrest : DepthFirst catalog (Insert.insert name seen) ((catalog.kindOf name).children ++ rest)
        order) : DepthFirst catalog seen (name :: rest) (name :: order)

/-- A name that leads, along any number of handles, to a type without a layout or to a
handle without an entry. -/
def Blocked (catalog : Catalog) (name : String) : Prop :=
  ∃ other, catalog.Reaches name other ∧ (catalog.fault? other).isSome

theorem refers_iff {child : String} :
    catalog.Refers name child ↔ child ∈ (catalog.kindOf name).children := by
  unfold Refers kindOf
  cases catalog.get? name with
  | none => simp [TypeKind.children]
  | some d => simp [Descriptor.children]

/-! ## The order -/

theorem DepthFirst.exists_reaches {seen : Set String} (h : catalog.DepthFirst seen names order)
    (hname : name ∈ order) : ∃ root ∈ names, catalog.Reaches root name := by
  induction h with
  | done => cases hname
  | skip _ _ ih =>
    obtain ⟨root, hroot, hreaches⟩ := ih hname
    exact ⟨root, List.mem_cons_of_mem _ hroot, hreaches⟩
  | enter _ _ ih =>
    rcases List.mem_cons.1 hname with rfl | hname
    · exact ⟨_, List.mem_cons_self, .refl⟩
    · obtain ⟨root, hroot, hreaches⟩ := ih hname
      rcases List.mem_append.1 hroot with hchild | hrest
      · exact ⟨_, List.mem_cons_self, hreaches.head (refers_iff.2 hchild)⟩
      · exact ⟨root, List.mem_cons_of_mem _ hrest, hreaches⟩

/-- What a visit comes to, together with what was seen before, holds the waiting names
and the handles of everything that was new. -/
theorem DepthFirst.covers {seen : Set String} (h : catalog.DepthFirst seen names order) :
    (∀ n ∈ names, n ∈ seen ∨ n ∈ order) ∧
      ∀ n ∈ order, ∀ child ∈ (catalog.kindOf n).children, child ∈ seen ∨ child ∈ order := by
  induction h with
  | done => simp
  | skip hseen _ ih =>
    refine ⟨?_, ih.2⟩
    intro n hn
    rcases List.mem_cons.1 hn with rfl | hn
    · exact Or.inl hseen
    · exact ih.1 n hn
  | @enter seen name rest order _ _ ih =>
    -- the new name counts as seen below, and it is the first of the order here
    have hmove : ∀ n, n ∈ Insert.insert name seen ∨ n ∈ order → n ∈ seen ∨ n ∈ name :: order := by
      intro n hn
      rcases hn with (rfl | hn) | hn
      · exact Or.inr List.mem_cons_self
      · exact Or.inl hn
      · exact Or.inr (List.mem_cons_of_mem _ hn)
    constructor
    · intro n hn
      rcases List.mem_cons.1 hn with rfl | hn
      · exact Or.inr List.mem_cons_self
      · exact hmove n (ih.1 n (List.mem_append_right _ hn))
    · intro n hn child hchild
      rcases List.mem_cons.1 hn with rfl | hn
      · exact hmove child (ih.1 child (List.mem_append_left _ hchild))
      · exact hmove child (ih.2 n hn child hchild)

/-- A visit that starts with nothing seen comes to just the names that can be reached. -/
theorem DepthFirst.mem_iff (h : catalog.DepthFirst ∅ names order) :
    name ∈ order ↔ ∃ root ∈ names, catalog.Reaches root name := by
  refine ⟨h.exists_reaches, ?_⟩
  rintro ⟨root, hroot, hreaches⟩
  have hcovers := h.covers
  simp only [Set.mem_empty_iff_false, false_or] at hcovers
  have hclosed : catalog.Closed {n | n ∈ order} := by
    intro n hn child hchild
    exact hcovers.2 n hn child (refers_iff.1 hchild)
  exact hclosed.mem_of_reaches (hcovers.1 root hroot) hreaches

/-- A visit comes to every name once, and to none that it had seen before. -/
theorem DepthFirst.nodup {seen : Set String} (h : catalog.DepthFirst seen names order) :
    order.Nodup ∧ ∀ n ∈ order, n ∉ seen := by
  induction h with
  | done => simp
  | skip _ _ ih => exact ih
  | @enter seen name rest order hnew _ ih =>
    obtain ⟨hnodup, hfresh⟩ := ih
    refine ⟨List.nodup_cons.2 ⟨fun hmem => ?_, hnodup⟩, ?_⟩
    · exact hfresh name hmem (Set.mem_insert name seen)
    · intro n hn
      rcases List.mem_cons.1 hn with rfl | hn
      · exact hnew
      · exact fun hseen => hfresh n hn (Set.mem_insert_of_mem name hseen)

theorem DepthFirst.unique {seen : Set String} {order' : List String}
    (h : catalog.DepthFirst seen names order) (h' : catalog.DepthFirst seen names order') :
    order = order' := by
  induction h generalizing order' with
  | done => cases h'; rfl
  | skip hseen _ ih =>
    cases h' with
    | skip _ h' => exact ih h'
    | enter hnew _ => exact absurd hseen hnew
  | enter hnew _ ih =>
    cases h' with
    | skip hseen _ => exact absurd hseen hnew
    | enter _ h' => rw [ih h']

theorem setOf_contains_insert (seen : Visited) (name : String) :
    {n | (seen.insert name).contains n} = Insert.insert name {n | seen.contains n} := by
  ext n
  simp only [Set.mem_ofPred_eq, Set.mem_insert_iff, contains_insert_seen, Bool.or_eq_true,
    beq_iff_eq]
  exact or_congr_left eq_comm

theorem children_kindOf_of_not_mem (hc : catalog.Consistent) (h : name ∉ catalog.names) :
    (catalog.kindOf name).children = [] := by
  cases hget : catalog.get? name with
  | none => simp [kindOf, hget, TypeKind.children]
  | some d => exact absurd (hc.mem_names.2 (hc.contains_iff_get?.2 ⟨d, hget⟩)) h

/-- Every visit comes to an end. The induction is on the names that are left to see, and
within it on the names that wait: a handle without an entry takes away none of the former,
but brings no new ones either. -/
theorem exists_order (hc : catalog.Consistent) (room : Nat) (names : List String)
    (seen : Visited) (hroom : unvisited catalog.names seen.contains ≤ room) :
    ∃ order, catalog.DepthFirst {n | seen.contains n} names order := by
  induction room using Nat.strong_induction_on generalizing names seen with
  | _ room fewer =>
    induction names generalizing seen with
    | nil => exact ⟨[], .done _⟩
    | cons name rest ih =>
      by_cases hseen : seen.contains name
      · obtain ⟨order, horder⟩ := ih seen hroom
        exact ⟨order, .skip hseen horder⟩
      · have hbelow : ∃ order, catalog.DepthFirst {n | (seen.insert name).contains n}
            ((catalog.kindOf name).children ++ rest) order := by
          by_cases hmem : name ∈ catalog.names
          · have hless := unvisited_insert_lt hmem hseen
            exact fewer _ (by omega) _ _ le_rfl
          · have hle := unvisited_insert_le catalog.names seen name
            rw [children_kindOf_of_not_mem hc hmem, List.nil_append]
            exact ih _ (by omega)
        obtain ⟨order, horder⟩ := hbelow
        rw [setOf_contains_insert] at horder
        exact ⟨name :: order, .enter hseen horder⟩

/-! ## The search -/

/-- What a search from several names comes to: it has visited names without a fault, and
either goes on behind them or stops at the next one. -/
def Searched (catalog : Catalog) (seen : Visited) (names : List String) :
    Except Offence Visited → Prop
  | .ok after => (∀ n, seen.contains n → after.contains n) ∧
      ∃ visited : List String, (∀ n ∈ visited, catalog.fault? n = none) ∧
        ∀ rest order, catalog.DepthFirst {n | after.contains n} rest order →
          catalog.DepthFirst {n | seen.contains n} (names ++ rest) (visited ++ order)
  | .error offence => catalog.fault? offence.name = some offence.fault ∧
      ∃ visited : List String, (∀ n ∈ visited, catalog.fault? n = none) ∧
        ∀ rest, ∃ order, catalog.DepthFirst {n | seen.contains n} (names ++ rest)
          (visited ++ offence.name :: order)

theorem Searched.nil (catalog : Catalog) (seen : Visited) : catalog.Searched seen [] (.ok seen) :=
  ⟨fun _ h => h, [], by simp, fun _ _ h => h⟩

theorem Searched.bind {first : Except Offence Visited} {next : Visited → Except Offence Visited}
    (hfirst : catalog.Searched seen [name] first)
    (hnext : ∀ after, first = .ok after → catalog.Searched after names (next after)) :
    catalog.Searched seen (name :: names) (first >>= next) := by
  cases first with
  | error offence =>
    obtain ⟨hfault, visited, hvisited, horder⟩ := hfirst
    exact ⟨hfault, visited, hvisited, fun rest => horder (names ++ rest)⟩
  | ok after =>
    obtain ⟨hkeeps, visited, hvisited, horder⟩ := hfirst
    have hnext := hnext after rfl
    have hboth : ∀ visited' : List String, (∀ n ∈ visited', catalog.fault? n = none) →
        ∀ n ∈ visited ++ visited', catalog.fault? n = none := by
      intro visited' hvisited' n hn
      exact (List.mem_append.1 hn).elim (hvisited n) (hvisited' n)
    rw [show (Except.ok after >>= next) = next after from rfl]
    cases hresult : next after with
    | error offence =>
      rw [hresult] at hnext
      obtain ⟨hfault, visited', hvisited', horder'⟩ := hnext
      refine ⟨hfault, visited ++ visited', hboth visited' hvisited', fun rest => ?_⟩
      obtain ⟨order, h⟩ := horder' rest
      refine ⟨order, ?_⟩
      rw [List.append_assoc]
      exact horder _ _ h
    | ok final =>
      rw [hresult] at hnext
      obtain ⟨hkeeps', visited', hvisited', horder'⟩ := hnext
      refine ⟨fun n hn => hkeeps' n (hkeeps n hn), visited ++ visited', hboth visited' hvisited',
        fun rest order h => ?_⟩
      rw [List.append_assoc]
      exact horder _ _ (horder' rest order h)

/-- A new name without a fault is visited before everything under it. -/
theorem Searched.enter {result : Except Offence Visited} (hnew : ¬ seen.contains name)
    (hfault : catalog.fault? name = none)
    (h : catalog.Searched (seen.insert name) (catalog.kindOf name).children result) :
    catalog.Searched seen [name] result := by
  have hvisit : ∀ visited : List String, (∀ n ∈ visited, catalog.fault? n = none) →
      ∀ n ∈ name :: visited, catalog.fault? n = none := by
    intro visited hvisited n hn
    rcases List.mem_cons.1 hn with rfl | hn
    · exact hfault
    · exact hvisited n hn
  cases result with
  | error offence =>
    obtain ⟨hoffence, visited, hvisited, horder⟩ := h
    refine ⟨hoffence, name :: visited, hvisit visited hvisited, fun rest => ?_⟩
    obtain ⟨order, h⟩ := horder rest
    rw [setOf_contains_insert] at h
    exact ⟨order, .enter hnew h⟩
  | ok after =>
    obtain ⟨hkeeps, visited, hvisited, horder⟩ := h
    refine ⟨fun n hn => hkeeps n ?_, name :: visited, hvisit visited hvisited, ?_⟩
    · exact contains_insert_of_contains name hn
    · intro rest order hrest
      have hbelow := horder rest order hrest
      rw [setOf_contains_insert] at hbelow
      exact .enter hnew hbelow

/-- Names are searched one after the other, with ever fewer names left to see, if each of
them is searched wherever there are few enough. -/
theorem Searched.foldlM {step : Visited → String → Except Offence Visited} {room : Nat}
    (hstep : ∀ seen name, unvisited catalog.names seen.contains < room →
      catalog.Searched seen [name] (step seen name))
    (names : List String) {seen : Visited}
    (hroom : unvisited catalog.names seen.contains < room) :
    catalog.Searched seen names (names.foldlM step seen) := by
  induction names generalizing seen with
  | nil => exact Searched.nil catalog seen
  | cons name rest ih =>
    rw [List.foldlM_cons]
    refine (hstep seen name hroom).bind fun after hafter => ih ?_
    have hfirst := hstep seen name hroom
    rw [hafter] at hfirst
    exact Nat.lt_of_le_of_lt (unvisited_mono hfirst.1) hroom

/-- One step of the search: a new name stops it, or its handles are searched. -/
theorem findUnsupported_of_new (fuel : Nat) (hnew : ¬ seen.contains name) :
    catalog.findUnsupported (fuel + 1) name seen =
      match catalog.fault? name with
      | some fault => .error ⟨name, fault⟩
      | none => (catalog.kindOf name).children.foldlM
          (fun seen child => catalog.findUnsupported fuel child seen) (seen.insert name) := by
  rw [findUnsupported, if_neg hnew]
  unfold fault? kindOf
  cases catalog.get? name with
  | none => rfl
  | some d =>
    dsimp only
    cases d.kind <;> rfl

theorem findUnsupported_searched (hc : catalog.Consistent) {fuel : Nat}
    (hfuel : unvisited catalog.names seen.contains < fuel) (name : String) :
    catalog.Searched seen [name] (catalog.findUnsupported fuel name seen) := by
  induction fuel generalizing seen name with
  | zero => omega
  | succ fuel ih =>
    by_cases hseen : seen.contains name
    · rw [findUnsupported, if_pos hseen]
      exact ⟨fun _ h => h, [], by simp, fun _ _ h => .skip hseen h⟩
    · rw [findUnsupported_of_new fuel hseen]
      cases hfault : catalog.fault? name with
      | some fault =>
        refine ⟨hfault, [], by simp, fun rest => ?_⟩
        obtain ⟨order, horder⟩ := exists_order hc _
          ((catalog.kindOf name).children ++ rest) (seen.insert name) le_rfl
        rw [setOf_contains_insert] at horder
        exact ⟨order, .enter hseen horder⟩
      | none =>
        have hbelow : catalog.Searched (seen.insert name) (catalog.kindOf name).children
            ((catalog.kindOf name).children.foldlM
              (fun seen child => catalog.findUnsupported fuel child seen) (seen.insert name)) := by
          by_cases hmem : name ∈ catalog.names
          · have hless := unvisited_insert_lt hmem hseen
            exact Searched.foldlM (fun seen child hroom => ih hroom child) _
              (show unvisited catalog.names (seen.insert name).contains < fuel by omega)
          · rw [children_kindOf_of_not_mem hc hmem]
            exact Searched.nil catalog _
        exact hbelow.enter hseen hfault

/-- The search finds the first name with a fault in the depth-first order of everything
that can be reached. -/
theorem exists_order_firstUnsupported? (hc : catalog.Consistent) (name : String) :
    ∃ order, catalog.DepthFirst ∅ [name] order ∧
      catalog.firstUnsupported? name = order.findSome? catalog.offence? := by
  have hroom : unvisited catalog.names (∅ : Visited).contains < catalog.size + 1 := by
    rw [← Consistent.length_names]
    exact Nat.lt_succ_of_le (unvisited_le_length _ _)
  have hempty : {n | (∅ : Visited).contains n} = (∅ : Set String) := by
    ext n
    simp
  have hsearched := findUnsupported_searched hc hroom name
  unfold firstUnsupported?
  have hpassed : ∀ visited order : List String, (∀ n ∈ visited, catalog.fault? n = none) →
      (visited ++ order).findSome? catalog.offence? = order.findSome? catalog.offence? := by
    intro visited order hvisited
    rw [List.findSome?_append, List.findSome?_eq_none_iff.2, Option.none_or]
    intro n hn
    rw [offence?, hvisited n hn, Option.map_none]
  cases hresult : catalog.findUnsupported (catalog.size + 1) name ∅ with
  | error offence =>
    rw [hresult] at hsearched
    obtain ⟨hfault, visited, hvisited, horder⟩ := hsearched
    obtain ⟨order, h⟩ := horder []
    rw [hempty] at h
    refine ⟨_, h, ?_⟩
    rw [hpassed visited _ hvisited, List.findSome?_cons, offence?, hfault]
    rfl
  | ok after =>
    rw [hresult] at hsearched
    obtain ⟨-, visited, hvisited, horder⟩ := hsearched
    have h := horder [] [] (.done _)
    rw [hempty] at h
    refine ⟨_, h, ?_⟩
    rw [hpassed visited [] hvisited]
    rfl

/-- What the search finds wrong is the first fault in depth-first order. -/
theorem exists_depthFirst (hc : catalog.Consistent) (name : String) :
    ∃ order, catalog.DepthFirst ∅ [name] order ∧
      (catalog.firstUnsupported? name).map Offence.fault = order.findSome? catalog.fault? := by
  obtain ⟨order, horder, hfirst⟩ := exists_order_firstUnsupported? hc name
  refine ⟨order, horder, ?_⟩
  rw [hfirst, List.map_findSome?]
  congr 1
  funext n
  cases hfault : catalog.fault? n <;> simp [offence?, hfault]

/-- The search finds something exactly if the name leads to something with a fault. -/
theorem isSome_firstUnsupported? (hc : catalog.Consistent) (name : String) :
    (catalog.firstUnsupported? name).isSome ↔ catalog.Blocked name := by
  obtain ⟨order, horder, heq⟩ := exists_depthFirst hc name
  rw [← Option.isSome_map, heq, List.findSome?_isSome_iff]
  constructor
  · rintro ⟨other, hother, hfault⟩
    obtain ⟨root, hroot, hreaches⟩ := horder.mem_iff.1 hother
    rw [List.mem_singleton.1 hroot] at hreaches
    exact ⟨other, hreaches, hfault⟩
  · rintro ⟨other, hreaches, hfault⟩
    exact ⟨other, horder.mem_iff.2 ⟨name, List.mem_cons_self, hreaches⟩, hfault⟩

end ScaleCalls.Catalog
