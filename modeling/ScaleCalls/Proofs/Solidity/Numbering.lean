import ScaleCalls.Proofs.Solidity.Scope
import ScaleCalls.Proofs.Text.Numeral

/-!
# The suffixes that a scope gives

Where no base looks like a base with a suffix, names from different bases never meet. A
scope then does no more than count: a base that is claimed for the `k`-th time gets the
suffix `_k`, and the first one gets none.

## Main definitions

- `Scope.numbered` — a base behind some claims of the same base
- `Scope.Unsuffixed` — no base of a list is another one with a suffix

## Main statements

- `Scope.getElem?_claimAll` — the name at a position, by the number of equal bases before it
-/

namespace ScaleCalls.Scope

variable {scope : Scope} {base a b : String} {bases seen : List String} {m n : Nat}

/-- Two lists that end differently behind a separator do so at the same place. -/
theorem append_cons_inj {α : Type} {separator : α} {xs ys us vs : List α} (hys : separator ∉ ys)
    (hvs : separator ∉ vs) (h : xs ++ separator :: ys = us ++ separator :: vs) :
    xs = us ∧ ys = vs := by
  obtain ⟨mid, hus, hmid⟩ | ⟨mid, hxs, hmid⟩ := List.append_eq_append_iff.1 h
  · cases mid with
    | nil => exact ⟨by simpa using hus.symm, (List.cons.inj hmid).2⟩
    | cons c mid =>
      obtain ⟨-, rfl⟩ := List.cons.inj hmid
      exact absurd (List.mem_append_right _ List.mem_cons_self) hys
  · cases mid with
    | nil => exact ⟨by simpa using hxs, (List.cons.inj hmid).2.symm⟩
    | cons c mid =>
      obtain ⟨-, rfl⟩ := List.cons.inj hmid
      exact absurd (List.mem_append_right _ List.mem_cons_self) hvs

theorem toList_candidate (base : String) (n : Nat) :
    (candidate base n).toList = base.toList ++ '_' :: Nat.toDigits 10 n := by
  simp [candidate, toString]

theorem underscore_not_mem_toDigits (n : Nat) : '_' ∉ Nat.toDigits 10 n := fun h =>
  absurd (Text.isDigit_of_mem_toDigits h) (by decide)

/-- A name with a suffix tells its base and its number. -/
theorem candidate_inj : candidate a m = candidate b n ↔ a = b ∧ m = n := by
  refine ⟨fun h => ?_, fun ⟨hbase, hnumber⟩ => hbase ▸ hnumber ▸ rfl⟩
  have hlist := congrArg String.toList h
  rw [toList_candidate, toList_candidate] at hlist
  obtain ⟨hbase, -⟩ := append_cons_inj (underscore_not_mem_toDigits m)
    (underscore_not_mem_toDigits n) hlist
  obtain rfl := String.toList_inj.1 hbase
  exact ⟨rfl, candidate_injective a h⟩

/-- The name of a base that was claimed some times before. -/
def numbered (base : String) (before : Nat) : String :=
  if before = 0 then base else candidate base (before + 1)

@[simp] theorem numbered_zero (base : String) : numbered base 0 = base := rfl

@[simp] theorem numbered_succ (base : String) (n : Nat) :
    numbered base (n + 1) = candidate base (n + 2) := rfl

/-- No base of a list is a base of this list with a suffix. -/
def Unsuffixed (bases : List String) : Prop :=
  ∀ a ∈ bases, ∀ b ∈ bases, ∀ n, candidate a n ≠ b

theorem Unsuffixed.subset (h : Unsuffixed bases) (hsubset : seen ⊆ bases) : Unsuffixed seen :=
  fun a ha b hb => h a (hsubset ha) b (hsubset hb)

/-- A name with a suffix tells how often its base was claimed before. -/
theorem numbered_inj (h : Unsuffixed bases) (ha : a ∈ bases) (hb : b ∈ bases) :
    numbered a m = numbered b n ↔ a = b ∧ m = n := by
  refine ⟨fun heq => ?_, fun ⟨hbase, hnumber⟩ => hbase ▸ hnumber ▸ rfl⟩
  cases m with
  | zero =>
    cases n with
    | zero => exact ⟨heq, rfl⟩
    | succ n => exact absurd heq.symm (h b hb a ha _)
  | succ m =>
    cases n with
    | zero => exact absurd heq (h a ha b hb _)
    | succ n =>
      obtain ⟨rfl, hnumber⟩ := candidate_inj.1 heq
      exact ⟨rfl, by omega⟩

/-- What is taken in a scope are the names of the bases that were claimed in it. -/
def Counts (scope : Scope) (seen : List String) : Prop :=
  ∀ name, scope.isTaken name ↔ ∃ b ∈ seen, ∃ j < seen.count b, name = numbered b j

theorem counts_empty : empty.Counts [] := by
  intro name
  simp [not_isTaken_empty]

/-- Of a base, as many names are taken as there were claims of it. -/
theorem Counts.isTaken_numbered (hcounts : scope.Counts seen) (h : Unsuffixed (seen ++ [base])) :
    scope.isTaken (numbered base n) ↔ n < seen.count base := by
  rw [hcounts]
  constructor
  · rintro ⟨b, hb, j, hj, heq⟩
    obtain ⟨rfl, rfl⟩ := (numbered_inj h (List.mem_append_right _ List.mem_cons_self)
      (List.mem_append_left _ hb)).1 heq
    exact hj
  · intro hn
    exact ⟨base, List.count_pos_iff.1 (Nat.zero_lt_of_lt hn), n, hn, rfl⟩

theorem Counts.nameFor (hcounts : scope.Counts seen) (h : Unsuffixed (seen ++ [base])) :
    scope.nameFor base = numbered base (seen.count base) := by
  have htaken : ∀ n, scope.isTaken (numbered base n) ↔ n < seen.count base := fun n =>
    hcounts.isTaken_numbered h
  by_cases hbase : scope.isTaken base
  · have hpos : 0 < seen.count base := (htaken 0).1 hbase
    -- the search stops at the first number that was not given out
    obtain ⟨k, heq, hbefore, hfree⟩ := nameFor_of_isTaken hbase
    have hcandidate : ∀ j, candidate base (2 + j) = numbered base (j + 1) := fun j => by
      rw [numbered_succ, Nat.add_comm]
    have hge : ¬ k + 1 < seen.count base := by
      rwa [hcandidate, htaken] at hfree
    have hle : k < seen.count base := by
      cases k with
      | zero => exact hpos
      | succ k =>
        have hlast := hbefore k (Nat.lt_succ_self k)
        rwa [hcandidate, htaken] at hlast
    rw [heq, hcandidate]
    congr 1
    omega
  · have hnone : seen.count base = 0 := Nat.eq_zero_of_not_pos (mt (htaken 0).2 hbase)
    rw [nameFor_of_not_isTaken hbase, hnone, numbered_zero]

theorem Counts.claim (hcounts : scope.Counts seen) (h : Unsuffixed (seen ++ [base])) :
    (scope.claim base).2.Counts (seen ++ [base]) := by
  intro name
  rw [isTaken_claim_iff, hcounts.nameFor h, hcounts]
  have hcount : ∀ b, (seen ++ [base]).count b = seen.count b + if base = b then 1 else 0 := by
    intro b
    simp [List.count_append, List.count_singleton]
  constructor
  · rintro (rfl | ⟨b, hb, j, hj, rfl⟩)
    · refine ⟨base, List.mem_append_right _ List.mem_cons_self, _, ?_, rfl⟩
      rw [hcount, if_pos rfl]
      exact Nat.lt_succ_self _
    · refine ⟨b, List.mem_append_left _ hb, j, ?_, rfl⟩
      rw [hcount]
      exact Nat.lt_add_right _ hj
  · rintro ⟨b, hb, j, hj, rfl⟩
    rw [hcount] at hj
    by_cases hlast : base = b ∧ j = seen.count b
    · obtain ⟨rfl, rfl⟩ := hlast
      exact .inl rfl
    · have hlt : j < seen.count b := by
        split at hj
        · rename_i hbase
          have hne : j ≠ seen.count b := fun h => hlast ⟨hbase, h⟩
          omega
        · exact hj
      exact .inr ⟨b, List.count_pos_iff.1 (Nat.zero_lt_of_lt hlt), j, hlt, rfl⟩

theorem Counts.getElem?_claimAll (hcounts : scope.Counts seen) (h : Unsuffixed (seen ++ bases))
    {front back : List String} (hbases : bases = front ++ base :: back) :
    (scope.claimAll bases)[front.length]? =
      some (numbered base (seen.count base + front.count base)) := by
  induction front generalizing scope seen bases with
  | nil =>
    subst hbases
    have hfirst : Unsuffixed (seen ++ [base]) := h.subset (by simp)
    rw [List.nil_append, claimAll, List.length_nil, List.getElem?_cons_zero,
      hcounts.nameFor hfirst, List.count_nil, Nat.add_zero]
  | cons first front ih =>
    subst hbases
    have hfirst : Unsuffixed (seen ++ [first]) := h.subset (by simp)
    rw [List.cons_append, claimAll, List.length_cons, List.getElem?_cons_succ,
      ih (hcounts.claim hfirst) (h.subset (by simp)) rfl, List.count_append, Nat.add_assoc,
      ← List.count_append, List.singleton_append]

/-- The name at a position of a list of bases depends on how often its base stands before
this position. -/
theorem getElem?_claimAll (h : Unsuffixed bases) {front back : List String}
    (hbases : bases = front ++ base :: back) :
    (empty.claimAll bases)[front.length]? = some (numbered base (front.count base)) := by
  rw [counts_empty.getElem?_claimAll h hbases, List.count_nil, Nat.zero_add]

end ScaleCalls.Scope
