import ScaleCalls.Proofs.Types.DepthFirst

/-!
# The search for an unsupported type is exact

The search is given a depth, and cuts off at names that it has seen, although what is under
such a name may still be open. Neither loses anything: what the search answers is the first
name with a fault in the depth-first order of everything under its start, and this order
comes to each name that can be reached.

`Catalog.Probe` is the same search without a depth: the names that wait are taken one by one,
from the front. It has no choice in any step, and it comes to an end on every catalog, where
the next name has a fault or none waits any more.

## Main definitions

- `Catalog.Probe`, `Catalog.ProbeStep` — the search without a depth

## Main statements

- `Catalog.DepthFirst.probes` — a search ends at the first name with a fault of its order
- `Catalog.firstUnsupported?_exact` — what the search answers, and that it ends
-/

namespace ScaleCalls.Catalog

variable {catalog : Catalog} {name : String} {names order : List String} {seen : Set String}

/-! ## Faults -/

/-- A name has a fault if its type is kept without a layout, or if it is no name of the
catalog. -/
theorem fault?_eq_some {fault : TypeFault} : catalog.fault? name = some fault ↔
    (∃ d, catalog.get? name = some d ∧ d.kind = .unsupported fault) ∨
      catalog.get? name = none ∧ fault = .unresolvable name "not in catalog" := by
  unfold fault? kindOf
  cases hget : catalog.get? name with
  | none => simp [eq_comm]
  | some d => cases hkind : d.kind <;> simp [hkind]

theorem fault?_eq_none : catalog.fault? name = none ↔
    ∃ d, catalog.get? name = some d ∧ d.isUnsupported = false := by
  unfold fault? kindOf
  cases hget : catalog.get? name with
  | none => simp
  | some d => cases hkind : d.kind <;> simp [Descriptor.isUnsupported, TypeKind.isUnsupported, hkind]

theorem offence?_eq_some {offence : Offence} : catalog.offence? name = some offence ↔
    offence.name = name ∧ catalog.fault? name = some offence.fault := by
  rw [offence?, Option.map_eq_some_iff]
  constructor
  · rintro ⟨fault, hfault, rfl⟩
    exact ⟨rfl, hfault⟩
  · rintro ⟨rfl, hfault⟩
    exact ⟨_, hfault, rfl⟩

/-! ## The search without a depth -/

/-- A search on its way: the names it has seen, and those that wait, the next one first. -/
structure Probe where
  seen : Set String
  waiting : List String

/-- The next name was seen before, or it has no fault and its handles are next. A name with
a fault stops the search. -/
inductive ProbeStep (catalog : Catalog) : Probe → Probe → Prop
  | skip {seen : Set String} {name : String} {rest : List String} (h : name ∈ seen) :
      ProbeStep catalog ⟨seen, name :: rest⟩ ⟨seen, rest⟩
  | enter {seen : Set String} {name : String} {rest : List String} (h : name ∉ seen)
      (hfault : catalog.fault? name = none) : ProbeStep catalog ⟨seen, name :: rest⟩
        ⟨Insert.insert name seen, (catalog.kindOf name).children ++ rest⟩

/-- What a search has found where it stops: the next name with its fault, if there is one. -/
def Probe.offence? (catalog : Catalog) (probe : Probe) : Option Offence :=
  probe.waiting.head?.bind catalog.offence?

theorem probeStep_rightUnique (catalog : Catalog) : Relator.RightUnique catalog.ProbeStep := by
  intro now next next' h h'
  cases h with
  | skip h =>
    cases h' with
    | skip => rfl
    | enter h' => exact absurd h h'
  | enter h =>
    cases h' with
    | skip h' => exact absurd h' h
    | enter => rfl

/-- A search goes through the names of its depth-first order, up to the first one that has a
fault. The induction is on the order. -/
theorem DepthFirst.probes (h : catalog.DepthFirst seen names order) :
    ∃ last, Relation.ReflTransGen catalog.ProbeStep ⟨seen, names⟩ last ∧
      (∀ next, ¬ catalog.ProbeStep last next) ∧
      order.findSome? catalog.offence? = last.offence? catalog := by
  induction h with
  | done seen =>
    refine ⟨⟨seen, []⟩, .refl, fun next hnext => ?_, rfl⟩
    cases hnext
  | skip hseen _ ih =>
    obtain ⟨last, hsteps, hend, hfound⟩ := ih
    exact ⟨last, .head (.skip hseen) hsteps, hend, hfound⟩
  | @enter seen name rest order hnew _ ih =>
    cases hfault : catalog.fault? name with
    | some fault =>
      have hoffence : catalog.offence? name = some ⟨name, fault⟩ :=
        offence?_eq_some.2 ⟨rfl, hfault⟩
      refine ⟨⟨seen, name :: rest⟩, .refl, fun next hnext => ?_, ?_⟩
      · cases hnext with
        | skip hseen => exact hnew hseen
        | enter _ hnone => rw [hfault] at hnone; cases hnone
      · rw [List.findSome?_cons, hoffence]
        exact hoffence.symm
    | none =>
      obtain ⟨last, hsteps, hend, hfound⟩ := ih
      refine ⟨last, .head (.enter hnew hfault) hsteps, hend, ?_⟩
      rw [List.findSome?_cons, offence?, hfault]
      exact hfound

/-! ## What it answers -/

/-- The search answers nothing exactly if everything under the name is in the catalog and has
a layout. Otherwise it answers a name that can be reached, with the fault that is kept for it
or with the one that it is not in the catalog: the first such name in the depth-first order,
which goes along the handles in their order and comes to everything under the name once. It
ends on every catalog. -/
theorem firstUnsupported?_exact (types : List Descriptor) (name : String) :
    let catalog := Catalog.ofList types
    (catalog.firstUnsupported? name = none ↔ ∀ other, catalog.Reaches name other →
      ∃ d, catalog.get? other = some d ∧ d.isUnsupported = false) ∧
    (∀ offence, catalog.firstUnsupported? name = some offence →
      catalog.Reaches name offence.name ∧
      ((∃ d, catalog.get? offence.name = some d ∧ d.kind = .unsupported offence.fault) ∨
        catalog.get? offence.name = none ∧
          offence.fault = .unresolvable offence.name "not in catalog")) ∧
    (∃ order, catalog.DepthFirst ∅ [name] order ∧ order.Nodup ∧
      (∀ other, other ∈ order ↔ catalog.Reaches name other) ∧
      catalog.firstUnsupported? name = order.findSome? catalog.offence?) ∧
    Acc (fun next now => catalog.ProbeStep now next) ⟨∅, [name]⟩ ∧
    ∃ last, Relation.ReflTransGen catalog.ProbeStep ⟨∅, [name]⟩ last ∧
      (∀ next, ¬ catalog.ProbeStep last next) ∧
      catalog.firstUnsupported? name = last.offence? catalog := by
  intro catalog
  have hc : catalog.Consistent := Consistent.ofList types
  obtain ⟨order, horder, hfirst⟩ := exists_order_firstUnsupported? hc name
  obtain ⟨last, hsteps, hend, hfound⟩ := horder.probes
  have hmem : ∀ other, other ∈ order ↔ catalog.Reaches name other := by
    intro other
    rw [horder.mem_iff]
    simp
  refine ⟨?_, ?_, ⟨order, horder, horder.nodup.1, hmem, hfirst⟩,
    acc_of_ends (probeStep_rightUnique catalog) hsteps hend,
    last, hsteps, hend, hfirst.trans hfound⟩
  · rw [hfirst, List.findSome?_eq_none_iff]
    simp only [hmem, offence?, Option.map_eq_none_iff, fault?_eq_none]
  · intro offence hoffence
    rw [hfirst] at hoffence
    obtain ⟨other, hother, hfault⟩ := List.exists_of_findSome?_eq_some hoffence
    obtain ⟨rfl, hfault⟩ := offence?_eq_some.1 hfault
    exact ⟨(hmem _).1 hother, fault?_eq_some.1 hfault⟩

end ScaleCalls.Catalog
