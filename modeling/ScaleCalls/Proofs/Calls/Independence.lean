import ScaleCalls.Proofs.Calls.Closed
import ScaleCalls.Proofs.Calls.Groups
import ScaleCalls.Proofs.Solidity.Agree

/-!
# The unit of a group does not depend on other groups

All groups of a collection share one catalog, and what it holds and in which order depends
on everything that was asked for. A group's own calls lead to a closed part of it, which
is the same whatever else there is; and nothing but this part is ever looked at when the
unit of the group is made.

## Main definitions

- `Collection.typeGraph` — the names that the calls of a group lead to

## Main statements

- `Collection.unit_eq_of_agree` — collections that agree on a group make the same unit of it
- `Collection.unit_eq_of_matched` — collections of one snapshot agree on each group that both
  have
-/

namespace ScaleCalls

namespace TypeTable

/-- The type of a name has this handle. -/
def Refers (table : TypeTable) (name child : String) : Prop :=
  child ∈ (table.describe name).children

/-- The type of a name is a container with this element. -/
def Holds (table : TypeTable) (name elem : String) : Prop :=
  (table.describe name).kind.element? = some elem

end TypeTable

namespace Collection

open Solidity

/-! ## Collections that agree -/

section Agree

variable {first second : Collection} {names : Set String}

theorem unsupportedArgs_eq (h : first.catalog.Agree second.catalog names) {call : ResolvedCall}
    (hcall : ∀ arg ∈ call.args, arg.handle ∈ names) :
    first.unsupportedArgs call = second.unsupportedArgs call := by
  have hoffence : ∀ (collection : Collection) (arg : ResolvedArgument),
      ((collection.catalog.firstUnsupported? arg.handle).map fun offence =>
        (⟨arg.name, arg.reference, offence.fault⟩ : UnsupportedArgument)) =
      ((collection.catalog.firstUnsupported? arg.handle).map Catalog.Offence.fault).map
        fun fault => ⟨arg.name, arg.reference, fault⟩ := by
    intro collection arg
    rw [Option.map_map]
    rfl
  refine List.filterMap_congr fun arg harg => ?_
  rw [hoffence, hoffence, h.fault_firstUnsupported? (hcall arg harg)]

theorem unitOf_eq (h : first.catalog.Agree second.catalog names)
    (hbounded : Bounded first.catalog second.catalog names) (codecLibrary group : String)
    {calls : List ResolvedCall} (skipped : List SkipNote)
    (hcalls : ∀ call ∈ calls, ∀ arg ∈ call.args, arg.handle ∈ names) :
    first.unitOf codecLibrary group calls skipped =
      second.unitOf codecLibrary group calls skipped := by
  have hroots : ∀ root ∈ calls.flatMap handles, root ∈ names := by
    intro root hroot
    obtain ⟨call, hcall, hroot⟩ := List.mem_flatMap.1 hroot
    obtain ⟨arg, harg, rfl⟩ := List.mem_map.1 hroot
    exact hcalls call hcall arg harg
  have htypes : first.declaredTypes calls = second.declaredTypes calls := h.reachable_eq hroots
  have hdeclared : ∀ d ∈ first.declaredTypes calls,
      d.name ∈ names ∧ first.catalog.get? d.name = some d := by
    intro d hd
    obtain ⟨root, hroot, hreaches⟩ := Catalog.reaches_of_mem_reachable h.consistent hd
    exact ⟨h.closed.mem_of_reaches (hroots root hroot) hreaches,
      (get?_of_mem_declaredTypes h.consistent hd).1⟩
  have halike : Lowering.Alike (first.lowering codecLibrary group calls)
      (second.lowering codecLibrary group calls) names := by
    refine ⟨h, hbounded, ?_⟩
    rw [lowering, lowering, ← htypes]
    exact TypeNames.nameAll_eq h hbounded _ hdeclared
  have hdeclarations : (first.declaredTypes calls).flatMap
        (first.lowering codecLibrary group calls).declarations =
      (second.declaredTypes calls).flatMap
        (second.lowering codecLibrary group calls).declarations := by
    rw [← htypes]
    refine List.flatMap_congr fun d hd => ?_
    obtain ⟨hname, hget⟩ := hdeclared d hd
    exact halike.declarations_eq hname fun child hchild => h.closed d.name hname child
      ⟨d, hget, hchild⟩
  have hfunctions : List.zipWith (first.lowering codecLibrary group calls).function
        (Scope.empty.claimAll (calls.map ResolvedCall.functionBase)) calls =
      List.zipWith (second.lowering codecLibrary group calls).function
        (Scope.empty.claimAll (calls.map ResolvedCall.functionBase)) calls :=
    zipWith_congr_of_mem fun name call hcall => halike.function_eq name (hcalls call hcall)
  show SourceUnit.mk _ _ _ _ _ = SourceUnit.mk _ _ _ _ _
  congr 1

/-- Collections make the same of a group if they have the same calls of it and agree on
what these lead to. -/
theorem unit_eq_of_agree (h : first.catalog.Agree second.catalog names)
    (hbounded : Bounded first.catalog second.catalog names) (policy : Policy)
    (codecLibrary group : String) (hsame : first.callsOf group = second.callsOf group)
    (hcalls : ∀ call ∈ first.callsOf group, ∀ arg ∈ call.args, arg.handle ∈ names) :
    first.unit policy codecLibrary group = second.unit policy codecLibrary group := by
  have hargs : ∀ call ∈ first.callsOf group,
      first.unsupportedArgs call = second.unsupportedArgs call :=
    fun call hcall => unsupportedArgs_eq h (hcalls call hcall)
  have hsupported : ∀ call ∈ first.callsOf group,
      first.isSupported call = second.isSupported call := by
    intro call hcall
    rw [isSupported, isSupported, hargs call hcall]
  have hnotes : first.notes (first.callsOf group) = second.notes (second.callsOf group) := by
    rw [notes, notes, ← hsame]
    have hfilter : ((first.callsOf group).filter fun call => !first.isSupported call) =
        (first.callsOf group).filter fun call => !second.isSupported call :=
      List.filter_congr fun call hcall => by rw [hsupported call hcall]
    rw [← hfilter]
    refine List.map_congr_left fun call hcall => ?_
    rw [skipNote, skipNote, hargs call (List.mem_filter.1 hcall).1]
  have hrefused : first.firstRefused? (first.callsOf group) =
      second.firstRefused? (second.callsOf group) := by
    rw [firstRefused?_eq_head?, firstRefused?_eq_head?, hnotes]
  have hencoded : first.supportedCalls group = second.supportedCalls group := by
    rw [supportedCalls, supportedCalls, ← hsame]
    exact List.filter_congr hsupported
  have hunit : first.skippingUnit codecLibrary group = second.skippingUnit codecLibrary group := by
    rw [skippingUnit, skippingUnit, ← hencoded, ← hnotes]
    exact unitOf_eq h hbounded codecLibrary group _ fun call hcall =>
      hcalls call (List.mem_filter.1 hcall).1
  cases policy with
  | skip => rw [unit_skip, unit_skip, hunit]
  | fail => rw [unit_fail, unit_fail, hunit, hrefused]

end Agree

/-! ## Collections of one snapshot -/

variable {snapshot : Snapshot} {pallet : Pallet} {requested : List String}

/-- The names that the arguments of a group's calls lead to. -/
def typeGraph (table : TypeTable) (pallet : Pallet) : Set String :=
  {name | ∃ reference ∈ references pallet,
    Relation.ReflTransGen table.Refers (table.handle reference) name}

/-- The catalog has an entry for whatever a collected group leads to, and what the entry
is depends on the snapshot alone. -/
theorem get?_of_mem_typeGraph (hmatched : pallet ∈ matchedGroups snapshot requested) {name : String}
    (hname : name ∈ typeGraph (TypeTable.ofSnapshot snapshot) pallet) :
    (ofSnapshot snapshot requested).catalog.get? name =
      some ((TypeTable.ofSnapshot snapshot).describe name) := by
  obtain ⟨reference, hreference, hreaches⟩ := hname
  have hwalked := TypeTable.catalogOf_closes snapshot
    ((matchedGroups snapshot requested).flatMap references)
  refine TypeTable.get?_catalogOf_eq_some.2 ⟨?_, rfl⟩
  induction hreaches with
  | refl =>
    exact hwalked.enters _ (List.mem_map_of_mem
      (List.mem_flatMap.2 ⟨pallet, hmatched, hreference⟩))
  | tail _ hchild ih =>
    exact hwalked.closes _ ih (TypeTable.not_contains_empty _) _ hchild

theorem closed_typeGraph (hmatched : pallet ∈ matchedGroups snapshot requested) :
    (ofSnapshot snapshot requested).catalog.Closed
      (typeGraph (TypeTable.ofSnapshot snapshot) pallet) := by
  rintro name hname child ⟨d, hget, hchild⟩
  rw [get?_of_mem_typeGraph hmatched hname] at hget
  cases hget
  obtain ⟨reference, hreference, hreaches⟩ := hname
  exact ⟨reference, hreference, hreaches.tail hchild⟩

/-- A chain of containers that starts at a name of a group is one of the snapshot. -/
theorem chain_of_chain (hmatched : pallet ∈ matchedGroups snapshot requested) {name other : String}
    (hname : name ∈ typeGraph (TypeTable.ofSnapshot snapshot) pallet)
    (h : Relation.TransGen (ofSnapshot snapshot requested).catalog.Holds name other) :
    Relation.TransGen (TypeTable.ofSnapshot snapshot).Holds name other ∧
      other ∈ typeGraph (TypeTable.ofSnapshot snapshot) pallet := by
  have hstep : ∀ a b, a ∈ typeGraph (TypeTable.ofSnapshot snapshot) pallet →
      (ofSnapshot snapshot requested).catalog.Holds a b →
        (TypeTable.ofSnapshot snapshot).Holds a b ∧
          b ∈ typeGraph (TypeTable.ofSnapshot snapshot) pallet := by
    intro a b ha hholds
    refine ⟨?_, closed_typeGraph hmatched a ha b
      (Catalog.refers_iff.2 (Catalog.mem_children_of_holds hholds))⟩
    rw [Catalog.Holds, Catalog.kindOf_of_get? (get?_of_mem_typeGraph hmatched ha)] at hholds
    exact hholds
  induction h with
  | single hholds =>
    obtain ⟨hsingle, hmem⟩ := hstep _ _ hname hholds
    exact ⟨.single hsingle, hmem⟩
  | tail _ hholds ih =>
    obtain ⟨hlast, hmem⟩ := hstep _ _ ih.2 hholds
    exact ⟨ih.1.tail hlast, hmem⟩

/-- Chains of containers of a group end within the catalog, if none comes back to where
it was. -/
theorem endsWithin_of_mem_typeGraph (hmatched : pallet ∈ matchedGroups snapshot requested)
    (hcycle : ∀ name ∈ typeGraph (TypeTable.ofSnapshot snapshot) pallet,
      ¬ Relation.TransGen (TypeTable.ofSnapshot snapshot).Holds name name) :
    ∀ name ∈ typeGraph (TypeTable.ofSnapshot snapshot) pallet,
      (ofSnapshot snapshot requested).catalog.EndsWithin
        (ofSnapshot snapshot requested).catalog.size name := by
  intro name hname
  exact Catalog.endsWithin_size (consistent_ofSnapshot snapshot requested)
    (closed_typeGraph hmatched)
    (fun n hn hreturns => hcycle n hn (chain_of_chain hmatched hn hreturns).1) hname

theorem mem_typeGraph_of_mem_orderedCalls {table : TypeTable} {call : ResolvedCall}
    (hcall : call ∈ orderedCalls table pallet) :
    ∀ arg ∈ call.args, arg.handle ∈ typeGraph table pallet := by
  intro arg harg
  obtain ⟨raw, hraw, rfl⟩ := List.mem_map.1 hcall
  obtain ⟨rawArg, hrawArg, rfl⟩ := List.mem_map.1 harg
  exact ⟨rawArg.reference, List.mem_flatMap.2 ⟨raw, List.mem_mergeSort.1 hraw,
    List.mem_map_of_mem hrawArg⟩, .refl⟩

/-- Whatever else is asked for, and however: two requests that both match a group make the
same unit of it, or refuse the same call. The containers of the group's types must not
contain themselves without a struct or enum in between. -/
theorem unit_eq_of_matched (snapshot : Snapshot) (pallet : Pallet) (policy : Policy)
    (codecLibrary : String) (first second : List String)
    (hfirst : ∃ name ∈ first, snapshot.pallet? name = some pallet)
    (hsecond : ∃ name ∈ second, snapshot.pallet? name = some pallet)
    (hcycle : ∀ name ∈ typeGraph (TypeTable.ofSnapshot snapshot) pallet,
      ¬ Relation.TransGen (TypeTable.ofSnapshot snapshot).Holds name name) :
    (ofSnapshot snapshot first).unit policy codecLibrary pallet.name =
      (ofSnapshot snapshot second).unit policy codecLibrary pallet.name := by
  have hfirst := ((matches_matchedGroups snapshot first).mem_iff pallet).2 hfirst
  have hsecond := ((matches_matchedGroups snapshot second).mem_iff pallet).2 hsecond
  have hagree : (ofSnapshot snapshot first).catalog.Agree (ofSnapshot snapshot second).catalog
      (typeGraph (TypeTable.ofSnapshot snapshot) pallet) := by
    refine ⟨consistent_ofSnapshot snapshot first, consistent_ofSnapshot snapshot second, ?_,
      closed_typeGraph hfirst⟩
    intro name hname
    rw [get?_of_mem_typeGraph hfirst hname, get?_of_mem_typeGraph hsecond hname]
  have hbounded : Bounded (ofSnapshot snapshot first).catalog (ofSnapshot snapshot second).catalog
      (typeGraph (TypeTable.ofSnapshot snapshot) pallet) :=
    ⟨endsWithin_of_mem_typeGraph hfirst hcycle, endsWithin_of_mem_typeGraph hsecond hcycle⟩
  refine unit_eq_of_agree hagree hbounded policy codecLibrary pallet.name ?_ ?_
  · rw [callsOf_ofSnapshot hfirst, callsOf_ofSnapshot hsecond]
  · intro call hcall
    rw [callsOf_ofSnapshot hfirst] at hcall
    exact mem_typeGraph_of_mem_orderedCalls hcall

/-- A vector of trees is the only container, and a tree is none. -/
theorem describe_garden : ∀ a ∈ ["Tree", "u8", "Vec<Tree>"],
    (∀ child ∈ ((TypeTable.ofSnapshot treeSnapshot).describe a).children,
      child ∈ ["Tree", "u8", "Vec<Tree>"]) ∧
    ((TypeTable.ofSnapshot treeSnapshot).describe a).kind.element? =
      if a = "Vec<Tree>" then some "Tree" else none := by
  decide +kernel

theorem typeGraph_garden : ∀ name ∈ typeGraph (TypeTable.ofSnapshot treeSnapshot)
      ⟨"Garden", 3, [⟨"plant", 1, [⟨"tree", "Tree"⟩]⟩]⟩,
    name ∈ ["Tree", "u8", "Vec<Tree>"] := by
  rintro name ⟨reference, hreference, hreaches⟩
  obtain rfl := List.mem_singleton.1 hreference
  induction hreaches with
  | refl => decide
  | tail _ hchild ih => exact (describe_garden _ ih).1 _ hchild

theorem chain_garden {name other : String} (hname : name ∈ ["Tree", "u8", "Vec<Tree>"])
    (h : Relation.TransGen (TypeTable.ofSnapshot treeSnapshot).Holds name other) :
    name = "Vec<Tree>" ∧ other = "Tree" := by
  have hstep : ∀ a b, a ∈ ["Tree", "u8", "Vec<Tree>"] →
      (TypeTable.ofSnapshot treeSnapshot).Holds a b → a = "Vec<Tree>" ∧ b = "Tree" := by
    intro a b ha hholds
    rw [TypeTable.Holds, (describe_garden a ha).2] at hholds
    split at hholds <;> cases hholds
    exact ⟨‹_›, rfl⟩
  induction h with
  | single hholds => exact hstep _ _ hname hholds
  | tail _ hholds ih =>
    rw [ih.2] at hholds
    exact absurd (hstep "Tree" _ (by decide) hholds).1 (by decide)

theorem unit_eq_of_matched_garden :
    (ofSnapshot treeSnapshot ["garden"]).unit .fail "ScaleCodec" "Garden" =
      (ofSnapshot treeSnapshot ["shed", "GARDEN", "nope", "Garden"]).unit .fail "ScaleCodec"
        "Garden" :=
  unit_eq_of_matched treeSnapshot ⟨"Garden", 3, [⟨"plant", 1, [⟨"tree", "Tree"⟩]⟩]⟩ .fail
    "ScaleCodec" ["garden"] ["shed", "GARDEN", "nope", "Garden"]
    ⟨"garden", by decide, by decide +kernel⟩ ⟨"GARDEN", by decide, by decide +kernel⟩
    fun name hname hreturns => by
      obtain ⟨hvector, htree⟩ := chain_garden (typeGraph_garden name hname) hreturns
      exact absurd (hvector.symm.trans htree) (by decide)

end Collection

end ScaleCalls
