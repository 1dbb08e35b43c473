import Mathlib.Data.List.Nodup
import Mathlib.Data.List.Perm.Subperm
import Std.Data.String.ToNat
import ScaleCalls.Solidity.Scope

/-!
# Scopes hand out free names

The candidates for a base are pairwise different, so among one more candidates than
there are taken names one is free, and the search for it ends there. What a scope hands
out was free and is taken from then on: the names that it gives are pairwise different.

## Main statements

- `Scope.exists_firstFree` — the search stops at the first free candidate
- `Scope.nameFor_of_isTaken` — the name that a taken base gets
- `Scope.not_isTaken_nameFor` — a name that is handed out was free
- `Scope.nodup_claimAll` — names claimed one after the other are different
-/

namespace ScaleCalls.Scope

variable {scope : Scope} {base name : String}

theorem candidate_injective (base : String) : Function.Injective (candidate base) := by
  intro m n h
  have hlist : base.toList ++ '_' :: m.repr.toList = base.toList ++ '_' :: n.repr.toList := by
    simpa [candidate, String.toList_append, toString] using congrArg String.toList h
  simp only [List.append_cancel_left_eq, List.cons.injEq, true_and] at hlist
  exact Nat.repr_injective (String.toList_inj.1 hlist)

theorem not_isTaken_empty (name : String) : ¬ empty.isTaken name := by
  simp [isTaken, empty]

theorem isTaken_reserving {reserved : List String} :
    (reserving reserved).isTaken name ↔ name ∈ reserved := by
  simp [isTaken, reserving]

theorem isTaken_take : (scope.take base).isTaken name = (base == name || scope.isTaken name) := by
  simp [isTaken, take, Std.TreeSet.contains_insert, BEq.beq, Std.LawfulEqCmp.compare_eq_iff_eq]

/-- The search looks at the candidates in order and stops at the first free one. -/
theorem exists_firstFree (scope : Scope) (base : String) (tries n : Nat) :
    ∃ k ≤ tries, scope.firstFree base tries n = candidate base (n + k) ∧
      (∀ j < k, scope.isTaken (candidate base (n + j))) ∧
      (k < tries → ¬ scope.isTaken (candidate base (n + k))) := by
  induction tries generalizing n with
  | zero => exact ⟨0, Nat.le_refl 0, rfl, by simp, by simp⟩
  | succ tries ih =>
    rw [firstFree]
    by_cases htaken : scope.isTaken (candidate base n)
    · rw [if_pos htaken]
      obtain ⟨k, hk, heq, hbefore, hfree⟩ := ih (n + 1)
      refine ⟨k + 1, by omega, by rw [heq]; congr 1; omega, ?_, ?_⟩
      · intro j hj
        cases j with
        | zero => exact htaken
        | succ j =>
          have := hbefore j (by omega)
          rwa [show n + (j + 1) = n + 1 + j by omega]
      · intro hlt
        rw [show n + (k + 1) = n + 1 + k by omega]
        exact hfree (by omega)
    · rw [if_neg htaken]
      exact ⟨0, by omega, rfl, by simp, fun _ => htaken⟩

/-- A list that holds some candidates in a row has at least that many members. -/
theorem le_length_of_candidates {names : List String} {n k : Nat}
    (h : ∀ j < k, candidate base (n + j) ∈ names) : k ≤ names.length := by
  have hnodup : ((List.range k).map fun j => candidate base (n + j)).Nodup := by
    refine List.nodup_range.map fun i j h => ?_
    have := candidate_injective base h
    omega
  have hsubset : (List.range k).map (fun j => candidate base (n + j)) ⊆ names := by
    intro name hname
    obtain ⟨j, hj, rfl⟩ := List.mem_map.1 hname
    exact h j (List.mem_range.1 hj)
  have hlength := hnodup.length_le_of_subset hsubset
  rwa [List.length_map, List.length_range] at hlength

/-- There are not enough taken names for all candidates. -/
theorem exists_free_candidate (scope : Scope) (base : String) (n : Nat) :
    ∃ k ≤ scope.taken.size, ¬ scope.isTaken (candidate base (n + k)) := by
  by_contra hall
  simp only [not_exists, not_and, not_not] at hall
  have hmem : ∀ k < scope.taken.size + 1, candidate base (n + k) ∈ scope.taken.toList :=
    fun k hk => Std.TreeSet.mem_toList.2
      (Std.TreeSet.contains_iff_mem.1 (hall k (Nat.le_of_lt_succ hk)))
  have hlength := le_length_of_candidates hmem
  rw [Std.TreeSet.length_toList] at hlength
  omega

theorem not_isTaken_firstFree (scope : Scope) (base : String) (n : Nat) :
    ¬ scope.isTaken (scope.firstFree base scope.taken.size n) := by
  obtain ⟨k, hk, heq, hbefore, hfree⟩ := exists_firstFree scope base scope.taken.size n
  rw [heq]
  obtain hlt | rfl := Nat.lt_or_eq_of_le hk
  · exact hfree hlt
  · obtain ⟨j, hj, hfreej⟩ := exists_free_candidate scope base n
    obtain hltj | rfl := Nat.lt_or_eq_of_le hj
    · exact absurd (hbefore j hltj) hfreej
    · exact hfreej

/-- A base that is taken gets the first of its candidates that is free. -/
theorem nameFor_of_isTaken (h : scope.isTaken base) :
    ∃ k, scope.nameFor base = candidate base (2 + k) ∧
      (∀ j < k, scope.isTaken (candidate base (2 + j))) ∧
      ¬ scope.isTaken (candidate base (2 + k)) := by
  obtain ⟨k, -, heq, hbefore, -⟩ := exists_firstFree scope base scope.taken.size 2
  have hfree := not_isTaken_firstFree scope base 2
  rw [heq] at hfree
  exact ⟨k, by rw [nameFor, if_pos h, heq], hbefore, hfree⟩

theorem nameFor_of_not_isTaken (h : ¬ scope.isTaken base) : scope.nameFor base = base := by
  rw [nameFor, if_neg h]

theorem not_isTaken_nameFor (scope : Scope) (base : String) :
    ¬ scope.isTaken (scope.nameFor base) := by
  by_cases h : scope.isTaken base
  · obtain ⟨k, heq, -, hfree⟩ := nameFor_of_isTaken h
    rwa [heq]
  · rwa [nameFor_of_not_isTaken h]

/-- After a claim, what it gave is taken besides what was taken before. -/
theorem isTaken_claim_iff (scope : Scope) (base name : String) :
    (scope.claim base).2.isTaken name ↔ scope.nameFor base = name ∨ scope.isTaken name := by
  simp [claim, isTaken_take]

theorem isTaken_claim_self (scope : Scope) (base : String) :
    (scope.claim base).2.isTaken (scope.nameFor base) :=
  (isTaken_claim_iff scope base _).2 (.inl rfl)

theorem isTaken_claim (h : scope.isTaken name) (base : String) :
    (scope.claim base).2.isTaken name :=
  (isTaken_claim_iff scope base name).2 (.inr h)

theorem not_isTaken_of_mem_claimAll {bases : List String} (h : name ∈ scope.claimAll bases) :
    ¬ scope.isTaken name := by
  induction bases generalizing scope with
  | nil => simp [claimAll] at h
  | cons base bases ih =>
    rw [claimAll] at h
    rcases List.mem_cons.1 h with rfl | hrest
    · exact not_isTaken_nameFor scope base
    · exact fun htaken => ih hrest (isTaken_claim htaken base)

/-- Names that are claimed one after the other are pairwise different. -/
theorem nodup_claimAll (scope : Scope) (bases : List String) : (scope.claimAll bases).Nodup := by
  induction bases generalizing scope with
  | nil => exact List.nodup_nil
  | cons base bases ih =>
    rw [claimAll, List.nodup_cons]
    exact ⟨fun h => not_isTaken_of_mem_claimAll h (isTaken_claim_self scope base), ih _⟩

end ScaleCalls.Scope
