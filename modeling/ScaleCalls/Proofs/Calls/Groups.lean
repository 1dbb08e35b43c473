import Mathlib.Data.List.Nodup
import ScaleCalls.Calls.Collection
import ScaleCalls.Proofs.Lists

/-!
# The calls of one group of a collection

However many groups are collected, and in whatever order they were asked for, the calls
of one of them are its own calls by index and name. They are sorted together with the
calls of all groups; as the sort is stable, picking out one group afterwards is sorting
the calls of this group alone.

## Main definitions

- `Matches` — the groups that some names stand for
- `Collection.orderedCalls` — the calls of a group, resolved and in order

## Main statements

- `Collection.matches_matchedGroups` — which groups a collection holds
- `Collection.callsOf_ofSnapshot` — the calls of a group depend on nothing but the group
-/

namespace ScaleCalls

/-- Calls of one group by index and, where that is the same, by name. -/
def Call.le (a b : Call) : Bool := a.index < b.index || (a.index == b.index && a.name ≤ b.name)

theorem ResolvedCall.le_total (a b : ResolvedCall) : a.le b || b.le a := by
  unfold ResolvedCall.le
  have hname := String.le_total a.name b.name
  have hgroup := UInt8.lt_or_lt_of_ne (a := a.index.group) (b := b.index.group)
  have hcall := UInt8.lt_or_lt_of_ne (a := a.index.call) (b := b.index.call)
  grind

theorem ResolvedCall.le_trans (a b c : ResolvedCall) (hab : a.le b) (hbc : b.le c) : a.le c := by
  unfold ResolvedCall.le at *
  have hname := @String.le_trans a.name b.name c.name
  grind

/-- The groups that some names stand for: each once, and by index. -/
structure Matches (snapshot : Snapshot) (names : List String) (pallets : List Pallet) : Prop where
  mem_iff : ∀ pallet, pallet ∈ pallets ↔ ∃ name ∈ names, snapshot.pallet? name = some pallet
  nodup : (pallets.map Pallet.name).Nodup
  sorted : pallets.Pairwise fun p q => p.index ≤ q.index

theorem Matches.eq_singleton {snapshot : Snapshot} {names : List String} {pallets : List Pallet}
    {pallet : Pallet} (h : Matches snapshot names pallets) (hmem : pallet ∈ pallets)
    (hall : ∀ p ∈ pallets, p = pallet) : pallets = [pallet] := by
  refine List.perm_singleton.1 ((List.perm_ext_iff_of_nodup (List.Nodup.of_map _ h.nodup)
    (List.nodup_singleton _)).2 fun p => ?_)
  rw [List.mem_singleton]
  exact ⟨hall p, fun hp => hp ▸ hmem⟩

theorem Snapshot.equalFold_of_pallet? {snapshot : Snapshot} {name : String} {pallet : Pallet}
    (h : snapshot.pallet? name = some pallet) : equalFold pallet.name name := by
  have hfound := List.find?_some h
  exact hfound

/-- Of the groups with one name only the first is ever found. -/
theorem Snapshot.pallet?_inj {snapshot : Snapshot} {m n : String} {p q : Pallet}
    (hp : snapshot.pallet? m = some p) (hq : snapshot.pallet? n = some q)
    (hname : p.name = q.name) : p = q := by
  have hm := Snapshot.equalFold_of_pallet? hp
  have hn := Snapshot.equalFold_of_pallet? hq
  have hsame : snapshot.pallet? m = snapshot.pallet? n := by
    simp only [equalFold, beq_iff_eq] at hm hn
    simp only [Snapshot.pallet?, equalFold, ← hm, ← hn, hname]
  rw [hp, hq] at hsame
  exact Option.some.inj hsame

namespace Collection

variable {snapshot : Snapshot} {names : List String} {pallet : Pallet}

theorem names_addGroup (matched : List Pallet) (pallet : Pallet) :
    (addGroup matched pallet).map Pallet.name =
      if pallet.name ∈ matched.map Pallet.name then matched.map Pallet.name
      else matched.map Pallet.name ++ [pallet.name] := by
  unfold addGroup
  by_cases h : pallet.name ∈ matched.map Pallet.name
  · rw [if_pos h, if_pos]
    simpa using h
  · rw [if_neg h, if_neg, List.map_append]
    · rfl
    · simpa using h

theorem nodup_addGroup {matched : List Pallet} (h : (matched.map Pallet.name).Nodup)
    (pallet : Pallet) : ((addGroup matched pallet).map Pallet.name).Nodup := by
  rw [names_addGroup]
  split
  · exact h
  · rename_i hnew
    exact List.nodup_append.2 ⟨h, List.nodup_singleton _, by
      intro a ha b hb heq
      rw [List.mem_singleton.1 hb] at heq
      exact hnew (heq ▸ ha)⟩

/-- Where a name stands for one group only, the groups that were added are there. -/
theorem mem_foldl_addGroup {added matched : List Pallet}
    (hinj : ∀ p ∈ matched ++ added, ∀ q ∈ matched ++ added, p.name = q.name → p = q) :
    pallet ∈ added.foldl addGroup matched ↔ pallet ∈ matched ++ added := by
  induction added generalizing matched with
  | nil => simp
  | cons first rest ih =>
    rw [List.foldl_cons]
    have hfirst : ∀ p, p ∈ addGroup matched first ↔ p ∈ matched ++ [first] := by
      intro p
      unfold addGroup
      split
      · rename_i hany
        obtain ⟨q, hq, hname⟩ := List.any_eq_true.1 hany
        have hsame : q = first := hinj q (List.mem_append_left _ hq) first
          (List.mem_append_right _ List.mem_cons_self) (beq_iff_eq.1 hname)
        rw [List.mem_append, List.mem_singleton]
        constructor
        · exact Or.inl
        · rintro (hp | rfl)
          · exact hp
          · exact hsame ▸ hq
      · rfl
    have hall : ∀ p, p ∈ addGroup matched first ++ rest ↔ p ∈ matched ++ first :: rest := by
      intro p
      rw [List.mem_append, hfirst]
      simp [or_assoc]
    rw [ih (fun p hp q hq => hinj p ((hall p).1 hp) q ((hall q).1 hq)), hall]

theorem matches_matchedGroups (snapshot : Snapshot) (names : List String) :
    Matches snapshot names (matchedGroups snapshot names) where
  mem_iff := by
    intro pallet
    have hinj : ∀ p ∈ [] ++ names.filterMap snapshot.pallet?,
        ∀ q ∈ [] ++ names.filterMap snapshot.pallet?, p.name = q.name → p = q := by
      intro p hp q hq hname
      obtain ⟨m, -, hm⟩ := List.mem_filterMap.1 hp
      obtain ⟨n, -, hn⟩ := List.mem_filterMap.1 hq
      exact Snapshot.pallet?_inj hm hn hname
    rw [matchedGroups, List.mem_mergeSort, mem_foldl_addGroup hinj, List.nil_append,
      List.mem_filterMap]
  nodup := by
    have hnodup : (((names.filterMap snapshot.pallet?).foldl addGroup []).map Pallet.name).Nodup :=
      List.foldlRecOn (motive := fun matched : List Pallet => (matched.map Pallet.name).Nodup)
        _ _ List.nodup_nil fun _ h pallet _ => nodup_addGroup h pallet
    exact (((List.mergeSort_perm _ _).map _).nodup_iff).2 hnodup
  sorted := by
    have htrans : ∀ a b c : Pallet, decide (a.index ≤ b.index) → decide (b.index ≤ c.index) →
        decide (a.index ≤ c.index) := by
      intro a b c hab hbc
      exact decide_eq_true (UInt8.le_trans (of_decide_eq_true hab) (of_decide_eq_true hbc))
    have htotal : ∀ a b : Pallet, decide (a.index ≤ b.index) || decide (b.index ≤ a.index) := by
      intro a b
      rw [Bool.or_eq_true, decide_eq_true_eq, decide_eq_true_eq]
      exact UInt8.le_total a.index b.index
    exact (List.pairwise_mergeSort htrans htotal _).imp of_decide_eq_true

/-- The calls of a group with the handles of their arguments, by index and by name. -/
def orderedCalls (table : TypeTable) (pallet : Pallet) : List ResolvedCall :=
  (pallet.calls.mergeSort Call.le).map (resolveCall table pallet)

theorem orderedCalls_eq_mergeSort (table : TypeTable) (pallet : Pallet) :
    orderedCalls table pallet =
      (pallet.calls.map (resolveCall table pallet)).mergeSort ResolvedCall.le := by
  refine List.map_mergeSort fun a _ b _ => ?_
  unfold Call.le ResolvedCall.le resolveCall
  grind

theorem filter_flatMap_resolveCall {table : TypeTable} {pallets : List Pallet}
    (hnodup : (pallets.map Pallet.name).Nodup) (h : pallet ∈ pallets) :
    (pallets.flatMap fun p => p.calls.map (resolveCall table p)).filter
        (fun call => call.group == pallet.name) =
      pallet.calls.map (resolveCall table pallet) := by
  have hsame : ∀ p : Pallet, (p.calls.map (resolveCall table p)).filter
      (fun call => call.group == pallet.name) =
        if p.name = pallet.name then p.calls.map (resolveCall table p) else [] := by
    intro p
    split
    · rename_i hname
      exact List.filter_eq_self.2 fun call hcall => by
        obtain ⟨c, -, rfl⟩ := List.mem_map.1 hcall
        exact beq_iff_eq.2 hname
    · rename_i hname
      refine List.filter_eq_nil_iff.2 fun call hcall => ?_
      obtain ⟨c, -, rfl⟩ := List.mem_map.1 hcall
      simpa [resolveCall] using hname
  obtain ⟨front, back, rfl⟩ := List.append_of_mem h
  rw [List.map_append, List.map_cons, List.nodup_middle, List.nodup_cons, List.mem_append,
    not_or] at hnodup
  have hnone : ∀ ps : List Pallet, pallet.name ∉ ps.map Pallet.name →
      (ps.flatMap fun p => p.calls.map (resolveCall table p)).filter
        (fun call => call.group == pallet.name) = [] := by
    intro ps hps
    rw [List.filter_flatMap]
    refine List.flatMap_eq_nil_iff.2 fun p hp => ?_
    rw [hsame, if_neg]
    exact fun hname => hps (hname ▸ List.mem_map_of_mem hp)
  rw [List.flatMap_append, List.flatMap_cons, List.filter_append, List.filter_append, hsame,
    if_pos rfl, hnone front hnodup.1.1, hnone back hnodup.1.2, List.nil_append, List.append_nil]

/-- The calls of a matched group are its own, whatever else was asked for. -/
theorem callsOf_ofSnapshot (h : pallet ∈ matchedGroups snapshot names) :
    (ofSnapshot snapshot names).callsOf pallet.name =
      orderedCalls (TypeTable.ofSnapshot snapshot) pallet := by
  have hnodup := (matches_matchedGroups snapshot names).nodup
  rw [orderedCalls_eq_mergeSort, callsOf, ofSnapshot,
    filter_mergeSort ResolvedCall.le_trans ResolvedCall.le_total,
    filter_flatMap_resolveCall hnodup h]

theorem matchedGroups_singleton {name : String} (h : snapshot.pallet? name = some pallet) :
    matchedGroups snapshot [name] = [pallet] := by
  rw [matchedGroups, List.filterMap_cons_some h, List.filterMap_nil]
  exact List.mergeSort_singleton pallet

/-- A group asked for alone is all that there is; where its calls are in order they stay so. -/
theorem ofSnapshot_singleton {name : String} (h : snapshot.pallet? name = some pallet)
    (hsorted : pallet.calls.Pairwise fun a b => a.le b) :
    ofSnapshot snapshot [name] =
      ⟨pallet.calls.map (resolveCall (TypeTable.ofSnapshot snapshot) pallet),
        (TypeTable.ofSnapshot snapshot).catalogOf (references pallet), [pallet.name], []⟩ := by
  have hunmatched : unmatchedNames snapshot [name] = [] := by
    simp [unmatchedNames, h]
  have hcalls := orderedCalls_eq_mergeSort (TypeTable.ofSnapshot snapshot) pallet
  rw [orderedCalls, List.mergeSort_of_pairwise hsorted] at hcalls
  rw [ofSnapshot, matchedGroups_singleton h, hunmatched, List.flatMap_singleton,
    List.flatMap_singleton, ← hcalls, List.map_singleton]

end Collection

end ScaleCalls
