import Mathlib.Data.List.Perm.Subperm
import ScaleCalls.Proofs.Lists
import ScaleCalls.Proofs.Types.DepthFirst

/-!
# Searches see only what they reach

Two catalogs agree on some names if these lead to the same types in both and to no other
names. Whatever else the catalogs hold, searches that start from such names come to the
same in both. They have different fuel, as it is taken from the sizes of the catalogs, but
each has enough.

## Main definitions

- `Catalog.Agree` — two catalogs are the same on a closed set of names
- `Catalog.EndsWithin` — a chain of containers ends after so many links

## Main statements

- `Agree.fault_firstUnsupported?` — the same fault is found first
- `Agree.reachable_eq` — the same types are listed in the same order
- `Catalog.endsWithin_size` — chains that do not come back end within the catalog
-/

namespace ScaleCalls

namespace Catalog

/-- Two catalogs have the same entries under some names, and these refer to no others. -/
structure Agree (first second : Catalog) (names : Set String) : Prop where
  consistent : first.Consistent
  consistent' : second.Consistent
  get? : ∀ name ∈ names, first.get? name = second.get? name
  closed : first.Closed names

variable {first second catalog : Catalog} {names : Set String} {name : String}

namespace Agree

theorem kindOf (h : Agree first second names) (hname : name ∈ names) :
    first.kindOf name = second.kindOf name := by
  unfold Catalog.kindOf
  rw [h.get? name hname]

theorem fault? (h : Agree first second names) (hname : name ∈ names) :
    first.fault? name = second.fault? name := by
  unfold Catalog.fault?
  rw [h.kindOf hname]

theorem mem_of_mem_children (h : Agree first second names) (hname : name ∈ names)
    {child : String} (hchild : child ∈ (first.kindOf name).children) : child ∈ names :=
  h.closed name hname child (refers_iff.2 hchild)

theorem symm (h : Agree first second names) : Agree second first names where
  consistent := h.consistent'
  consistent' := h.consistent
  get? := fun name hname => (h.get? name hname).symm
  closed := by
    intro name hname child hrefers
    rw [refers_iff, ← h.kindOf hname] at hrefers
    exact h.mem_of_mem_children hname hrefers

/-- Visits take the same way in both catalogs. -/
theorem depthFirst (h : Agree first second names) {seen : Set String} {waiting order : List String}
    (horder : first.DepthFirst seen waiting order) (hwaiting : ∀ n ∈ waiting, n ∈ names) :
    second.DepthFirst seen waiting order ∧ ∀ n ∈ order, n ∈ names := by
  induction horder with
  | done => exact ⟨.done _, by simp⟩
  | skip hseen _ ih =>
    obtain ⟨hrest, hmem⟩ := ih fun n hn => hwaiting n (List.mem_cons_of_mem _ hn)
    exact ⟨.skip hseen hrest, hmem⟩
  | @enter seen name rest order hnew _ ih =>
    have hname : name ∈ names := hwaiting name List.mem_cons_self
    obtain ⟨hrest, hmem⟩ := ih fun n hn => by
      rcases List.mem_append.1 hn with hn | hn
      · exact h.mem_of_mem_children hname hn
      · exact hwaiting n (List.mem_cons_of_mem _ hn)
    rw [h.kindOf hname] at hrest
    refine ⟨.enter hnew hrest, fun n hn => ?_⟩
    rcases List.mem_cons.1 hn with rfl | hn
    · exact hname
    · exact hmem n hn

theorem fault_firstUnsupported? (h : Agree first second names) (hname : name ∈ names) :
    (first.firstUnsupported? name).map Offence.fault =
      (second.firstUnsupported? name).map Offence.fault := by
  obtain ⟨order, horder, hfirst⟩ := exists_depthFirst h.consistent name
  obtain ⟨order', horder', hsecond⟩ := exists_depthFirst h.consistent' name
  obtain ⟨hsame, hmem⟩ := h.depthFirst horder (by simpa using hname)
  obtain rfl := hsame.unique horder'
  rw [hfirst, hsecond]
  clear hfirst hsecond hsame horder horder'
  induction order with
  | nil => rfl
  | cons n order ih =>
    rw [List.findSome?_cons, List.findSome?_cons, h.fault? (hmem n List.mem_cons_self),
      ih fun n hn => hmem n (List.mem_cons_of_mem _ hn)]

/-- Each catalog has more fuel than names left to see. -/
def Room (first second : Catalog) (fuel fuel' : Nat) (state : Catalog.Ordering) : Prop :=
  unvisited first.names state.seen.contains < fuel ∧
    unvisited second.names state.seen.contains < fuel'

theorem Room.visit {fuel fuel' : Nat} {state : Catalog.Ordering} (hc : first.Consistent)
    (hroom : Room first second fuel fuel' state) (k : Nat) (name : String) :
    Room first second fuel fuel' (first.visit k state name) := by
  have hkeeps := (visit_listed hc k state name).keeps
  exact ⟨Nat.lt_of_le_of_lt (unvisited_mono hkeeps) hroom.1,
    Nat.lt_of_le_of_lt (unvisited_mono hkeeps) hroom.2⟩

theorem visit_eq (h : Agree first second names) {fuel fuel' : Nat} {state : Catalog.Ordering}
    (hroom : Room first second fuel fuel' state) (hname : name ∈ names) :
    first.visit fuel state name = second.visit fuel' state name := by
  induction fuel generalizing fuel' state name with
  | zero => exact absurd hroom.1 (Nat.not_lt_zero _)
  | succ fuel ih =>
    cases fuel' with
    | zero => exact absurd hroom.2 (Nat.not_lt_zero _)
    | succ fuel' =>
      rw [visit, visit]
      by_cases hseen : state.seen.contains name
      · rw [if_pos hseen, if_pos hseen]
      · rw [if_neg hseen, if_neg hseen, h.get? name hname]
        cases hget : second.get? name with
        | none => rfl
        | some d =>
          have hget' : first.get? name = some d := (h.get? name hname).trans hget
          have hmem : name ∈ first.names :=
            h.consistent.mem_names.2 (h.consistent.contains_iff_get?.2 ⟨d, hget'⟩)
          have hmem' : name ∈ second.names :=
            h.consistent'.mem_names.2 (h.consistent'.contains_iff_get?.2 ⟨d, hget⟩)
          have hless := unvisited_insert_lt hmem hseen
          have hless' := unvisited_insert_lt hmem' hseen
          have hbelow : Room first second fuel fuel' ⟨state.seen.insert name, state.done⟩ := by
            obtain ⟨hfirst, hsecond⟩ := hroom
            exact ⟨by dsimp only; omega, by dsimp only; omega⟩
          -- seeing more keeps the room, and the children stay in the closed set
          have hfold : d.children.foldl (first.visit fuel) ⟨state.seen.insert name, state.done⟩ =
              d.children.foldl (second.visit fuel') ⟨state.seen.insert name, state.done⟩ := by
            refine foldl_congr_of_invariant (P := Room first second fuel fuel')
              (fun s child _ hs => hs.visit h.consistent fuel child) ?_ hbelow
            intro s child hchild hs
            exact ih hs (h.closed name hname child ⟨d, hget', hchild⟩)
          dsimp only
          rw [hfold]

theorem reachable_eq (h : Agree first second names) {roots : List String}
    (hroots : ∀ root ∈ roots, root ∈ names) : first.reachable roots = second.reachable roots := by
  have hroom : Room first second (first.size + 1) (second.size + 1) ⟨∅, []⟩ := by
    constructor <;> rw [← Consistent.length_names] <;>
      exact Nat.lt_succ_of_le (unvisited_le_length _ _)
  unfold reachable
  congr 2
  refine foldl_congr_of_invariant (P := Room first second (first.size + 1) (second.size + 1))
    (fun s root _ hs => hs.visit h.consistent (first.size + 1) root) ?_ hroom
  intro s root hroot hs
  exact h.visit_eq hs (hroots root hroot)

end Agree

/-! ## Chains of containers -/

/-- Going from containers to their elements ends after at most so many links. -/
def EndsWithin (catalog : Catalog) : Nat → String → Prop
  | 0, name => (catalog.kindOf name).element? = none
  | k + 1, name => ∀ elem, (catalog.kindOf name).element? = some elem → EndsWithin catalog k elem

/-- The type of a name is a container with this element. -/
def Holds (catalog : Catalog) (name elem : String) : Prop :=
  (catalog.kindOf name).element? = some elem

theorem EndsWithin.of_holds {k : Nat} {elem : String} (h : catalog.EndsWithin k name)
    (hholds : catalog.Holds name elem) : ∃ m, k = m + 1 ∧ catalog.EndsWithin m elem := by
  cases k with
  | zero =>
    rw [EndsWithin, hholds] at h
    cases h
  | succ m => exact ⟨m, rfl, h elem hholds⟩

/-- A chain that ends does not come back to where it started. -/
theorem EndsWithin.not_returns {k : Nat} (h : catalog.EndsWithin k name) :
    ¬ Relation.TransGen catalog.Holds name name := by
  induction k using Nat.strong_induction_on generalizing name with
  | _ k ih =>
    intro hreturns
    obtain ⟨elem, hholds, hback⟩ := Relation.TransGen.head'_iff.1 hreturns
    obtain ⟨m, rfl, hm⟩ := h.of_holds hholds
    exact ih m (Nat.lt_succ_self m) hm (Relation.TransGen.tail' hback hholds)

theorem Agree.holds (h : Agree first second names) (hname : name ∈ names) {elem : String}
    (hholds : first.Holds name elem) : second.Holds name elem := by
  rw [Holds, ← h.kindOf hname]
  exact hholds

theorem mem_names_of_holds (hc : catalog.Consistent) {elem : String}
    (h : catalog.Holds name elem) : name ∈ catalog.names := by
  unfold Holds at h
  cases hget : catalog.get? name with
  | none => simp [kindOf, hget, TypeKind.element?] at h
  | some d => exact hc.mem_names.2 (hc.contains_iff_get?.2 ⟨d, hget⟩)

theorem mem_children_of_holds {elem : String} (h : catalog.Holds name elem) :
    elem ∈ (catalog.kindOf name).children := by
  unfold Holds at h
  cases hkind : catalog.kindOf name <;> simp_all [TypeKind.element?, TypeKind.children]

/-- A chain of containers that starts in the common part stays in it. -/
theorem Agree.transGen_holds (h : Agree first second names) (hname : name ∈ names)
    {other : String} (hchain : Relation.TransGen first.Holds name other) :
    Relation.TransGen second.Holds name other ∧ other ∈ names := by
  induction hchain with
  | single hholds =>
    exact ⟨.single (h.holds hname hholds),
      h.mem_of_mem_children hname (mem_children_of_holds hholds)⟩
  | tail _ hholds ih =>
    exact ⟨ih.1.tail (h.holds ih.2 hholds),
      h.mem_of_mem_children ih.2 (mem_children_of_holds hholds)⟩

/-- A chain that never comes back to a name has links of different names, so it cannot be
longer than the catalog. The list is the part of the chain that lies behind. -/
theorem endsWithin_of_path (hc : catalog.Consistent) (hclosed : catalog.Closed names)
    (hcycle : ∀ name ∈ names, ¬ Relation.TransGen catalog.Holds name name) (room : Nat)
    (path : List String) (hname : name ∈ names) (hnodup : path.Nodup)
    (hpath : ∀ n ∈ path, n ∈ catalog.names ∧ Relation.TransGen catalog.Holds n name)
    (hroom : catalog.names.length ≤ room + path.length) : catalog.EndsWithin room name := by
  induction room generalizing path name with
  | zero =>
    rw [EndsWithin]
    cases helem : (catalog.kindOf name).element? with
    | none => rfl
    | some elem =>
      have hnew : name ∉ path := fun hmem => hcycle name hname (hpath name hmem).2
      have hsubset : name :: path ⊆ catalog.names :=
        List.cons_subset.2 ⟨mem_names_of_holds hc helem, fun n hn => (hpath n hn).1⟩
      have hlength := (List.nodup_cons.2 ⟨hnew, hnodup⟩).length_le_of_subset hsubset
      rw [List.length_cons] at hlength
      omega
  | succ room ih =>
    intro elem helem
    have hnew : name ∉ path := fun hmem => hcycle name hname (hpath name hmem).2
    refine ih (name :: path) (hclosed name hname elem (refers_iff.2 (mem_children_of_holds helem)))
      (List.nodup_cons.2 ⟨hnew, hnodup⟩) ?_ (by simp only [List.length_cons]; omega)
    intro n hn
    rcases List.mem_cons.1 hn with rfl | hn
    · exact ⟨mem_names_of_holds hc helem, .single helem⟩
    · exact ⟨(hpath n hn).1, (hpath n hn).2.tail helem⟩

theorem endsWithin_size (hc : catalog.Consistent) (hclosed : catalog.Closed names)
    (hcycle : ∀ name ∈ names, ¬ Relation.TransGen catalog.Holds name name) (hname : name ∈ names) :
    catalog.EndsWithin catalog.size name :=
  endsWithin_of_path hc hclosed hcycle catalog.size [] hname List.nodup_nil (by simp)
    (by rw [Consistent.length_names, List.length_nil, Nat.add_zero])

end Catalog

end ScaleCalls
