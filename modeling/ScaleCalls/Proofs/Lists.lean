import Mathlib.Data.List.Forall2
import Mathlib.Data.List.TakeWhile

/-!
# Lists

Facts about lists that the theory of the generator uses throughout: an element that is
the only one of its kind is the one that is found; lists made side by side; and a stable
sort seen through a filter.

## Main statements

- `find?_eq_some_of_unique` — looking up something that is there once
- `pairwise_mergeSort_stable` — what is kept in order by a sort
- `filter_mergeSort` — leaving elements out before or after a sort
-/

namespace ScaleCalls

variable {α β γ δ : Type}

/-- An element that alone satisfies a condition is the one that is found. -/
theorem find?_eq_some_of_unique {p : α → Bool} {l : List α} {a : α} (ha : a ∈ l)
    (hp : p a) (hunique : ∀ b ∈ l, p b → b = a) : l.find? p = some a := by
  cases hfind : l.find? p with
  | none => exact absurd hp (List.find?_eq_none.1 hfind a ha)
  | some b => rw [hunique b (List.mem_of_find?_eq_some hfind) (List.find?_some hfind)]

/-- Folding two steps over a list gives the same where the steps do, as long as a property
of the state holds that the steps keep. -/
theorem foldl_congr_of_invariant {f g : β → α → β} {P : β → Prop} {as : List α}
    (hkeep : ∀ b, ∀ a ∈ as, P b → P (f b a)) (hsame : ∀ b, ∀ a ∈ as, P b → f b a = g b a)
    {b : β} (hb : P b) : as.foldl f b = as.foldl g b := by
  induction as generalizing b with
  | nil => rfl
  | cons a as ih =>
    rw [List.foldl_cons, List.foldl_cons, ← hsame b a List.mem_cons_self hb]
    exact ih (fun b a' ha' => hkeep b a' (List.mem_cons_of_mem _ ha'))
      (fun b a' ha' => hsame b a' (List.mem_cons_of_mem _ ha'))
      (hkeep b a List.mem_cons_self hb)

theorem getElem?_length_append_cons (front back : List α) (a : α) :
    (front ++ a :: back)[front.length]? = some a := by
  rw [List.getElem?_append_right (Nat.le_refl _), Nat.sub_self, List.getElem?_cons_zero]

/-- An element of a list without repetitions has one place. -/
theorem eq_of_getElem?_eq_some {l : List α} (hnodup : l.Nodup) {i j : Nat} {a : α}
    (hi : l[i]? = some a) (hj : l[j]? = some a) : i = j :=
  (List.getElem?_inj (List.getElem?_eq_some_iff.1 hi).1 hnodup).1 (hi.trans hj.symm)

/-! ## Two lists side by side -/

theorem map_zipWith_of_left {f : α → β → γ} {g : γ → δ} {k : α → δ}
    (hg : ∀ a b, g (f a b) = k a) {as : List α} {bs : List β} (h : as.length = bs.length) :
    (List.zipWith f as bs).map g = as.map k := by
  rw [← List.map_uncurry_zip_eq_zipWith, List.map_map]
  conv_rhs => rw [← List.map_fst_zip (Nat.le_of_eq h), List.map_map]
  exact List.map_congr_left fun pair _ => hg pair.1 pair.2

theorem map_zipWith_of_right {f : α → β → γ} {g : γ → δ} {k : β → δ}
    (hg : ∀ a b, g (f a b) = k b) {as : List α} {bs : List β} (h : as.length = bs.length) :
    (List.zipWith f as bs).map g = bs.map k := by
  rw [← List.map_uncurry_zip_eq_zipWith, List.map_map]
  conv_rhs => rw [← List.map_snd_zip (Nat.le_of_eq h.symm), List.map_map]
  exact List.map_congr_left fun pair _ => hg pair.1 pair.2

theorem zipWith_congr_of_mem {f g : α → β → γ} {as : List α} {bs : List β}
    (h : ∀ a, ∀ b ∈ bs, f a b = g a b) : List.zipWith f as bs = List.zipWith g as bs := by
  induction as generalizing bs with
  | nil => rfl
  | cons a as ih =>
    cases bs with
    | nil => rfl
    | cons b bs =>
      rw [List.zipWith_cons_cons, List.zipWith_cons_cons, h a b List.mem_cons_self,
        ih fun a b hb => h a b (List.mem_cons_of_mem _ hb)]

theorem forall₂_zipWith (f : α → β → γ) {as : List α} {bs : List β}
    (h : as.length = bs.length) :
    List.Forall₂ (fun c b => ∃ a, c = f a b) (List.zipWith f as bs) bs := by
  induction as generalizing bs with
  | nil =>
    rw [List.length_eq_zero_iff.1 h.symm]
    exact .nil
  | cons a as ih =>
    cases bs with
    | nil => cases h
    | cons b bs => exact .cons ⟨a, rfl⟩ (ih (Nat.succ.inj h))

theorem exists_of_mem_forall₂ {R : α → β → Prop} {as : List α} {bs : List β}
    (h : List.Forall₂ R as bs) {a : α} (ha : a ∈ as) : ∃ b ∈ bs, R a b := by
  induction h with
  | nil => cases ha
  | @cons a' b as bs hab _ ih =>
    rcases List.mem_cons.1 ha with rfl | ha
    · exact ⟨b, List.mem_cons_self, hab⟩
    · obtain ⟨b', hb', hr⟩ := ih ha
      exact ⟨b', List.mem_cons_of_mem _ hb', hr⟩

/-- What stands at a place of one list is related to what stands there in the other. -/
theorem exists_getElem?_of_forall₂ {R : α → β → Prop} {as : List α} {bs : List β}
    (h : List.Forall₂ R as bs) {i : Nat} {a : α} (ha : as[i]? = some a) :
    ∃ b, bs[i]? = some b ∧ R a b := by
  induction h generalizing i with
  | nil => cases ha
  | @cons a' b as bs hab _ ih =>
    cases i with
    | zero =>
      cases ha
      exact ⟨b, rfl, hab⟩
    | succ i => exact ih ha

/-- Two lists that are related member by member are so by what holds of their members. -/
theorem forall₂_of_mem {R S : α → β → Prop} {as : List α} {bs : List β}
    (h : List.Forall₂ R as bs) (hRS : ∀ a b, a ∈ as → b ∈ bs → R a b → S a b) :
    List.Forall₂ S as bs := by
  induction h with
  | nil => exact .nil
  | cons hab _ ih =>
    refine .cons (hRS _ _ List.mem_cons_self List.mem_cons_self hab) (ih ?_)
    exact fun a b ha hb => hRS a b (List.mem_cons_of_mem _ ha) (List.mem_cons_of_mem _ hb)

/-! ## Sorting -/

/-- In a list that starts with elements of one kind and goes on with elements of the
other, the place where it changes is given by the list. -/
theorem eq_of_append_eq_append {p : α → Bool} {front back front' back' : List α}
    (hfront : ∀ a ∈ front, p a) (hback : ∀ a ∈ back, ¬ p a) (hfront' : ∀ a ∈ front', p a)
    (hback' : ∀ a ∈ back', ¬ p a) (h : front ++ back = front' ++ back') :
    front = front' ∧ back = back' := by
  have htake : ∀ {front back : List α}, (∀ a ∈ front, p a) → (∀ a ∈ back, ¬ p a) →
      (front ++ back).takeWhile p = front := by
    intro front back hfront hback
    rw [List.takeWhile_append_of_pos hfront]
    have hnone : back.takeWhile p = [] := by
      cases back with
      | nil => rfl
      | cons b back => simp [hback b List.mem_cons_self]
    rw [hnone, List.append_nil]
  have heq : front = front' := by
    rw [← htake hfront hback, h, htake hfront' hback']
  subst heq
  exact ⟨rfl, List.append_cancel_left h⟩

theorem le_of_mem_behind {le : α → α → Bool} (trans : ∀ a b c, le a b → le b c → le a c)
    (total : ∀ a b, le a b || le b a) {l front back : List α} {a b : α}
    (h : l.mergeSort le = front ++ a :: back) (hb : b ∈ back) : le a b := by
  have hsorted := List.pairwise_mergeSort trans total l
  rw [h, List.pairwise_append, List.pairwise_cons] at hsorted
  exact hsorted.2.1.1 b hb

/-- A sorted list is in order, and elements that are not told apart keep the order of the
list that was sorted. -/
theorem pairwise_mergeSort_stable {le : α → α → Bool}
    (trans : ∀ a b c, le a b → le b c → le a c) (total : ∀ a b, le a b || le b a)
    {R : α → α → Prop} {l : List α} (h : l.Pairwise R) :
    (l.mergeSort le).Pairwise fun a b => le a b ∧ (le b a → R a b) := by
  induction l with
  | nil => simp
  | cons a l ih =>
    obtain ⟨hfirst, hrest⟩ := List.pairwise_cons.1 h
    obtain ⟨front, back, hsort, hsplit, hfront⟩ := List.mergeSort_cons trans total a l
    have hsorted := ih hrest
    have hback : ∀ b ∈ back, b ∈ l := fun b hb =>
      (List.mergeSort_perm l le).mem_iff.1 (hsplit ▸ List.mem_append_right front hb)
    rw [hsplit, List.pairwise_append] at hsorted
    obtain ⟨hinFront, hinBack, hacross⟩ := hsorted
    rw [hsort, List.pairwise_append, List.pairwise_cons]
    refine ⟨hinFront, ⟨fun b hb => ?_, hinBack⟩, fun b hb c hc => ?_⟩
    · exact ⟨le_of_mem_behind trans total hsort hb, fun _ => hfirst b (hback b hb)⟩
    · obtain rfl | hc := List.mem_cons.1 hc
      · -- what is sorted in front of the first element is strictly smaller
        have hnot : le c b = false := by simpa using hfront b hb
        have hle : le b c := by simpa [hnot] using total b c
        exact ⟨hle, fun hcb => absurd hcb (by simp [hnot])⟩
      · exact hacross b hb c hc

/-- Sorting keeps elements that are not told apart in their order, so it does not matter
whether some are left out before or afterwards. -/
theorem filter_mergeSort {le : α → α → Bool}
    (trans : ∀ a b c, le a b → le b c → le a c) (total : ∀ a b, le a b || le b a)
    (p : α → Bool) (l : List α) : (l.mergeSort le).filter p = (l.filter p).mergeSort le := by
  induction l with
  | nil => simp
  | cons a l ih =>
    obtain ⟨front, back, hsort, hrest, hfront⟩ := List.mergeSort_cons trans total a l
    rw [hrest, List.filter_append] at ih
    rw [hsort, List.filter_append, List.filter_cons, List.filter_cons]
    by_cases ha : p a
    · rw [if_pos ha, if_pos ha]
      obtain ⟨front', back', hsort', hrest', hfront'⟩ :=
        List.mergeSort_cons trans total a (l.filter p)
      -- both lists change at the place where `a` belongs
      have hback : ∀ b ∈ back.filter p, ¬ (!le a b) := by
        intro b hb
        simp [le_of_mem_behind trans total hsort (List.mem_filter.1 hb).1]
      have hback' : ∀ b ∈ back', ¬ (!le a b) := by
        intro b hb
        simp [le_of_mem_behind trans total hsort' hb]
      obtain ⟨rfl, rfl⟩ := eq_of_append_eq_append
        (fun b hb => hfront b (List.mem_filter.1 hb).1) hback hfront' hback' (ih.trans hrest')
      rw [hsort']
    · rw [if_neg ha, if_neg ha, ih]

end ScaleCalls
