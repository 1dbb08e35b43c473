import ScaleCalls.Proofs.Solidity.Numbering

/-!
# What a sequence of claims returns

A scope is known by the names that are taken in it: those that were reserved and those that
it has given out. Every claim finds a free name, after no more tests than there are taken
names, and adds it to them. So the names that any sequence of claims returns are determined
one after the other by the bases and by what was reserved.

## Main definitions

- `Scope.Knows` — the names that are taken in a scope, as a list
- `FreshName` — the name of a base among taken names

## Main statements

- `Scope.Knows.freshName` — what one claim returns
- `Scope.Knows.claim` — what is taken after it
- `Scope.claimAll_reserving` — what a sequence of claims returns
- `Scope.exists_base_of_mem_claimAll`, `Scope.mem_claimAll_iff` — names and their bases
-/

namespace ScaleCalls

open Scope

/-- The name that a base gets among taken names. A free base is its own name. For another one
the numbers from 2 on are tried in order, and the search ends at the first free candidate: at
a number that is not greater than the number of taken names and one. -/
inductive FreshName (taken : List String) (base : String) : String → Prop
  | unchanged (h : base ∉ taken) : FreshName taken base base
  | numbered {n : Nat} (h : base ∈ taken) (two_le : 2 ≤ n) (le_length : n ≤ taken.length + 1)
      (free : candidate base n ∉ taken)
      (least : ∀ m, 2 ≤ m → m < n → candidate base m ∈ taken) :
      FreshName taken base (candidate base n)

namespace Scope

variable {scope : Scope} {taken bases : List String} {base : String} {n : Nat}

theorem candidate_ne_base (base : String) (n : Nat) : candidate base n ≠ base := by
  intro h
  have hlength := congrArg List.length (congrArg String.toList h)
  rw [toList_candidate, List.length_append, List.length_cons] at hlength
  omega

/-- A base and candidates for it that are all taken are that many taken names. -/
theorem lt_length_of_taken (hbase : base ∈ taken)
    (hbefore : ∀ j < n, candidate base (2 + j) ∈ taken) : n < taken.length := by
  have hrest : ∀ j < n, candidate base (2 + j) ∈ taken.erase base := fun j hj =>
    (List.mem_erase_of_ne (candidate_ne_base base _)).2 (hbefore j hj)
  have hlength := le_length_of_candidates hrest
  rw [List.length_erase_of_mem hbase] at hlength
  have hpos := List.length_pos_of_mem hbase
  omega

/-- The names that are taken in a scope are those of a list. -/
def Knows (scope : Scope) (taken : List String) : Prop :=
  ∀ name, scope.isTaken name ↔ name ∈ taken

theorem knows_reserving (reserved : List String) : (reserving reserved).Knows reserved :=
  fun _ => isTaken_reserving

theorem Knows.freshName (h : scope.Knows taken) (base : String) :
    FreshName taken base (scope.nameFor base) := by
  by_cases hbase : scope.isTaken base
  · obtain ⟨k, heq, hbefore, hfree⟩ := nameFor_of_isTaken hbase
    simp only [h _] at hbase hbefore hfree
    have hlength := lt_length_of_taken hbase hbefore
    rw [heq]
    refine .numbered hbase (by omega) (by omega) hfree fun m htwo hm => ?_
    obtain ⟨j, rfl⟩ := Nat.exists_eq_add_of_le htwo
    exact hbefore j (by omega)
  · rw [nameFor_of_not_isTaken hbase]
    exact .unchanged ((h base).not.1 hbase)

theorem Knows.claim (h : scope.Knows taken) (base : String) :
    (scope.claim base).2.Knows (taken ++ [scope.nameFor base]) := by
  intro name
  rw [isTaken_claim_iff, h name, List.mem_append, List.mem_singleton, or_comm, eq_comm]

/-- Each of a sequence of claims returns the name of its base among the names that are taken
by then. -/
theorem Knows.freshName_claimAll (h : scope.Knows taken) {i : Nat} {name : String}
    (hbase : bases[i]? = some base) (hname : (scope.claimAll bases)[i]? = some name) :
    FreshName (taken ++ (scope.claimAll bases).take i) base name := by
  induction bases generalizing scope taken i with
  | nil => cases hbase
  | cons first bases ih =>
    rw [claimAll] at hname ⊢
    cases i with
    | zero =>
      cases hbase
      cases hname
      rw [List.take_zero, List.append_nil]
      exact h.freshName _
    | succ i =>
      rw [List.getElem?_cons_succ] at hbase hname
      rw [List.take_succ_cons, List.append_cons]
      exact ih (h.claim first) hbase hname

/-- Claims for any sequence of bases return one name each. The names are pairwise different
and none of them is reserved. Each is the name of its base among the reserved names and the
names that were returned before. -/
theorem claimAll_reserving (reserved bases : List String) :
    let names := (reserving reserved).claimAll bases
    names.length = bases.length ∧ names.Nodup ∧ (∀ name ∈ names, name ∉ reserved) ∧
      ∀ (i : Nat) (base name : String), bases[i]? = some base → names[i]? = some name →
        FreshName (reserved ++ names.take i) base name := by
  intro names
  have hknows := knows_reserving reserved
  refine ⟨length_claimAll _ _, nodup_claimAll _ _, fun name hname hreserved => ?_, ?_⟩
  · exact not_isTaken_of_mem_claimAll hname ((hknows name).2 hreserved)
  · exact fun i base name hbase hname => hknows.freshName_claimAll hbase hname

/-- A base that looks like another one with a number takes the place of that number. -/
theorem claimAll_reserving_lookalikes :
    let names := (reserving ["encode"]).claimAll ["encode", "a", "a_2", "a", "a_2", "a"]
    names = ["encode_2", "a", "a_2", "a_3", "a_2_2", "a_4"] ∧
      FreshName ["encode", "encode_2", "a", "a_2", "a_3"] "a_2" "a_2_2" := by
  intro names
  have hnames : names = ["encode_2", "a", "a_2", "a_3", "a_2_2", "a_4"] := by decide +kernel
  have hfresh := (claimAll_reserving ["encode"] ["encode", "a", "a_2", "a", "a_2", "a"]).2.2.2 4
    "a_2" "a_2_2" rfl (congrArg (·[4]?) hnames)
  have htaken : names.take 4 = ["encode_2", "a", "a_2", "a_3"] := by
    rw [hnames]
    rfl
  exact ⟨hnames, htaken ▸ hfresh⟩

/-! ## Names and their bases -/

theorem nameFor_cases (scope : Scope) (base : String) :
    scope.nameFor base = base ∨ ∃ n, scope.nameFor base = candidate base n := by
  by_cases h : scope.isTaken base
  · obtain ⟨k, heq, -⟩ := nameFor_of_isTaken h
    exact .inr ⟨_, heq⟩
  · exact .inl (nameFor_of_not_isTaken h)

/-- A name is one of the bases that were claimed, or such a base with a suffix. -/
theorem exists_base_of_mem_claimAll {name : String} (h : name ∈ scope.claimAll bases) :
    ∃ base ∈ bases, name = base ∨ ∃ n, name = candidate base n := by
  induction bases generalizing scope with
  | nil => cases h
  | cons first bases ih =>
    rw [claimAll] at h
    obtain rfl | h := List.mem_cons.1 h
    · exact ⟨first, List.mem_cons_self, nameFor_cases scope first⟩
    · obtain ⟨base, hbase, hname⟩ := ih h
      exact ⟨base, List.mem_cons_of_mem _ hbase, hname⟩

/-- A free name that no suffix leads to is given out exactly if it is claimed. -/
theorem mem_claimAll_iff {name : String} (hname : ∀ base n, candidate base n ≠ name)
    (hfree : ¬ scope.isTaken name) : name ∈ scope.claimAll bases ↔ name ∈ bases := by
  constructor
  · intro h
    obtain ⟨base, hbase, rfl | ⟨n, rfl⟩⟩ := exists_base_of_mem_claimAll h
    · exact hbase
    · exact absurd rfl (hname base n)
  · intro h
    induction bases generalizing scope with
    | nil => cases h
    | cons first bases ih =>
      rw [claimAll]
      by_cases hfirst : scope.nameFor first = name
      · exact List.mem_cons.2 (.inl hfirst.symm)
      · refine List.mem_cons_of_mem _ (ih ?_ ((List.mem_cons.1 h).resolve_left ?_))
        · rw [isTaken_claim_iff]
          exact not_or.2 ⟨hfirst, hfree⟩
        · rintro rfl
          exact hfirst (nameFor_of_not_isTaken hfree)

end Scope

end ScaleCalls
