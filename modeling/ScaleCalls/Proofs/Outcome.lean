import ScaleCalls.Proofs.Lists

/-!
# Computations that may fail

A list of steps succeeds when every step does, and its result lists their results. A step
fails with a fault, or just has no result.
-/

namespace ScaleCalls

variable {ε α β γ : Type}

theorem bind_eq_ok {action : Except ε α} {next : α → Except ε β} {b : β} :
    action >>= next = .ok b ↔ ∃ a, action = .ok a ∧ next a = .ok b := by
  cases action with
  | error e => simp [bind, Except.bind]
  | ok a => simp [bind, Except.bind]

theorem bind_eq_error {action : Except ε α} {next : α → Except ε β} {e : ε} :
    action >>= next = .error e ↔
      action = .error e ∨ ∃ a, action = .ok a ∧ next a = .error e := by
  cases action with
  | error e' => simp [bind, Except.bind]
  | ok a => simp [bind, Except.bind]

/-- Running a step over a list succeeds exactly with the list of the steps' results. -/
theorem mapM_eq_ok {step : α → Except ε β} {as : List α} {bs : List β} :
    as.mapM step = .ok bs ↔ List.Forall₂ (fun a b => step a = .ok b) as bs := by
  induction as generalizing bs with
  | nil =>
    rw [List.mapM_nil, List.forall₂_nil_left_iff]
    exact ⟨fun h => (Except.ok.inj h).symm, fun h => h ▸ rfl⟩
  | cons a as ih =>
    rw [List.mapM_cons, bind_eq_ok, List.forall₂_cons_left_iff]
    constructor
    · rintro ⟨b, hb, hrest⟩
      obtain ⟨rest, hstep, heq⟩ := bind_eq_ok.1 hrest
      cases heq
      exact ⟨b, rest, hb, ih.1 hstep, rfl⟩
    · rintro ⟨b, rest, hb, hrest, rfl⟩
      exact ⟨b, hb, bind_eq_ok.2 ⟨rest, ih.2 hrest, rfl⟩⟩

/-- Where every step succeeds with a result that stands in some relation to what it was
applied to, so does running the step over the list. -/
theorem exists_mapM_eq_ok {step : α → Except ε β} {R : α → β → Prop} {as : List α}
    (h : ∀ a ∈ as, ∃ b, step a = .ok b ∧ R a b) :
    ∃ bs, as.mapM step = .ok bs ∧ List.Forall₂ R as bs := by
  induction as with
  | nil => exact ⟨[], rfl, .nil⟩
  | cons a as ih =>
    obtain ⟨b, hb, hr⟩ := h a List.mem_cons_self
    obtain ⟨bs, hbs, hrest⟩ := ih fun a' ha' => h a' (List.mem_cons_of_mem _ ha')
    refine ⟨b :: bs, mapM_eq_ok.2 (.cons hb (mapM_eq_ok.1 hbs)), .cons hr hrest⟩

theorem exists_of_mapM_eq_error {step : α → Except ε β} {as : List α} {e : ε}
    (h : as.mapM step = .error e) : ∃ a ∈ as, step a = .error e := by
  induction as with
  | nil => cases h
  | cons a as ih =>
    rw [List.mapM_cons, bind_eq_error] at h
    obtain hfirst | ⟨b, -, hrest⟩ := h
    · exact ⟨a, List.mem_cons_self, hfirst⟩
    · obtain hrest | ⟨bs, -, hpure⟩ := bind_eq_error.1 hrest
      · obtain ⟨a', ha', hstep⟩ := ih hrest
        exact ⟨a', List.mem_cons_of_mem _ ha', hstep⟩
      · cases hpure

theorem eq_map_of_mapM_eq_ok {step : α → Except ε β} {f : α → β}
    (hstep : ∀ a b, step a = .ok b → b = f a) {as : List α} {bs : List β}
    (h : as.mapM step = .ok bs) : bs = as.map f := by
  have hall := mapM_eq_ok.1 h
  clear h
  induction hall with
  | nil => rfl
  | cons hab _ ih => rw [hstep _ _ hab, ih, List.map_cons]

/-! ## Optional results -/

theorem mapM_eq_some_map {step : α → Option β} {f : α → β} {as : List α}
    (h : ∀ a ∈ as, step a = some (f a)) : as.mapM step = some (as.map f) := by
  induction as with
  | nil => rfl
  | cons a as ih =>
    rw [List.mapM_cons, h a List.mem_cons_self, ih fun b hb => h b (List.mem_cons_of_mem _ hb)]
    rfl

theorem exists_of_mem_mapM {step : α → Option β} {as : List α} {bs : List β}
    (h : as.mapM step = some bs) {b : β} (hb : b ∈ bs) : ∃ a ∈ as, step a = some b := by
  induction as generalizing bs with
  | nil =>
    cases h
    cases hb
  | cons a as ih =>
    rw [List.mapM_cons] at h
    obtain ⟨first, hfirst, h⟩ := Option.bind_eq_some_iff.1 h
    obtain ⟨rest, hrest, h⟩ := Option.bind_eq_some_iff.1 h
    cases h
    obtain rfl | hb := List.mem_cons.1 hb
    · exact ⟨a, List.mem_cons_self, hfirst⟩
    · obtain ⟨a', ha', hstep⟩ := ih hrest hb
      exact ⟨a', List.mem_cons_of_mem _ ha', hstep⟩

end ScaleCalls
