import Mathlib.Data.Set.Basic
import ScaleCalls.Proofs.Registry.Naming

/-!
# Chains of containers that come back

Where the links from a type never end, the naming of the first type on the chain comes back
to a type whose name is being made, and writes the number of this type. So in the end one
of these types has a name that is written around its own reference.

## Main definitions

- `Registry.Runs` — a text around the reference of a type, along the links
- `Registry.Returns` — a recorded name around its own reference

## Main statements

- `returns_nameAll` — endless links leave such a name behind
-/

namespace ScaleCalls.Registry

variable {registry : Registry} {entry : Entry} {naming : Naming} {number outer inner : UInt32}
  {text name : String} {fuel : Nat} {path : List UInt32} {set : Set UInt32}

/-- A text for a type that is written around the reference of the last type of a chain. -/
inductive Runs (registry : Registry) (last : UInt32) : UInt32 → String → Prop where
  | stop : Runs registry last last (idReference last)
  | wrap {outer inner : UInt32} {text name : String}
      (haround : Around registry outer inner text name) (h : Runs registry last inner text) :
      Runs registry last outer name

/-- A type of the set has a name that is written around its own reference. -/
def Returns (registry : Registry) (set : Set UInt32) (naming : Naming) : Prop :=
  ∃ number ∈ set, ∃ inner text name, naming.names[number]? = some name ∧
    Around registry number inner text name ∧ Runs registry number inner text

theorem Wraps.rule (h : registry.Wraps outer inner) :
    ∃ entry before after, registry.get? outer = some entry ∧
      rule outer entry = .around before [inner] after ∧
      ∀ text, Around registry outer inner text
        (before ++ String.intercalate ", " [text] ++ after) := by
  obtain ⟨entry, container, hentry, hcontainer⟩ | ⟨entry, hentry, hnewtype⟩ := h
  · exact ⟨entry, _, _, hentry, rule_of_container? hcontainer, fun text =>
      .container hentry hcontainer⟩
  · refine ⟨entry, _, _, hentry, rule_of_newtype? hnewtype, fun text => ?_⟩
    rw [String.empty_append, String.append_empty]
    exact .newtype ⟨entry, hentry, hnewtype⟩

theorem Runs.spelled {last : UInt32} (h : Runs registry last number text) :
    registry.Spelled number text := by
  induction h with
  | stop => exact .word (word_reference last)
  | wrap haround _ ih => exact .around haround ih

/-- Such a text is long enough and has no colon, so what is written around it is read as a
container. -/
theorem Runs.letters {last : UInt32} (h : Runs registry last number text) :
    2 < (Text.stripBlanks text).toList.length ∧ ':' ∉ (Text.stripBlanks text).toList := by
  induction h with
  | stop =>
    rw [stripBlanks_idReference, toList_idReference]
    refine ⟨?_, fun hmem => ?_⟩
    · rw [List.length_append]
      exact Nat.lt_of_lt_of_le (by decide) (Nat.le_add_right "Lookup".toList.length _)
    · exact (List.mem_append.1 hmem).elim (by decide) (colon_not_mem_toDigits _)
  | wrap haround _ ih =>
    cases haround with
    | newtype _ => exact ih
    | @container _ container _ _ =>
      rw [toList_container]
      refine ⟨?_, fun hmem => ?_⟩
      · rw [List.length_append, List.length_append]
        omega
      · rcases List.mem_append.1 hmem with hmem | hmem
        · exact container.colon_not_mem.1 hmem
        · exact (List.mem_append.1 hmem).elim ih.2 container.colon_not_mem.2

/-! ## Room on the path -/

/-- The types whose names are being made are different, and there is fuel for all others. -/
structure Room (registry : Registry) (fuel : Nat) (path : List UInt32) : Prop where
  nodup : path.Nodup
  present : ∀ number ∈ path, registry.get? number ≠ none
  size : registry.types.size < fuel + path.length

theorem Room.start (registry : Registry) : Room registry (registry.types.size + 1) [] :=
  ⟨List.nodup_nil, by simp, Nat.lt_succ_self _⟩

theorem Room.ne_zero (h : Room registry fuel path) : fuel ≠ 0 := by
  rintro rfl
  have hnodup : (path.map UInt32.toNat).Nodup :=
    h.nodup.map fun a b hab => UInt32.toNat_inj.1 hab
  have hrange : path.map UInt32.toNat ⊆ List.range registry.types.size := by
    intro i hi
    obtain ⟨number, hnumber, rfl⟩ := List.mem_map.1 hi
    obtain ⟨entry, hentry⟩ := Option.ne_none_iff_exists'.1 (h.present number hnumber)
    obtain ⟨hlt, -⟩ := Array.getElem?_eq_some_iff.1 hentry
    exact List.mem_range.2 hlt
  have hlength := hnodup.length_le_of_subset hrange
  have hsize := h.size
  rw [List.length_map, List.length_range] at hlength
  omega

theorem Room.cons (h : Room registry (fuel + 1) path) (hnumber : number ∉ path)
    (hentry : registry.get? number = some entry) : Room registry fuel (number :: path) := by
  refine ⟨List.nodup_cons.2 ⟨hnumber, h.nodup⟩, fun other hother => ?_, ?_⟩
  · rcases List.mem_cons.1 hother with rfl | hother
    · rw [hentry]
      exact Option.some_ne_none _
    · exact h.present other hother
  · have hsize := h.size
    rw [List.length_cons]
    omega

/-! ## The first name on an endless chain -/

theorem Returns.record (h : Returns registry set naming) (hnew : naming.names[number]? = none)
    (name : String) : Returns registry set (naming.record number name) := by
  obtain ⟨other, hother, inner, text, found, hfound, hrest⟩ := h
  have hne : number ≠ other := by
    rintro rfl
    rw [hnew] at hfound
    cases hfound
  refine ⟨other, hother, inner, text, found, ?_, hrest⟩
  rw [Naming.getElem?_record, if_neg hne, hfound]

theorem Returns.nameWithin (h : Returns registry set naming) (fuel : Nat) (path : List UInt32)
    (number : UInt32) : Returns registry set (registry.nameWithin fuel path naming number).2 := by
  obtain ⟨other, hother, inner, text, found, hfound, hrest⟩ := h
  refine ⟨other, hother, inner, text, found, ?_, hrest⟩
  rw [names_nameWithin fuel (.inr (by rw [hfound]; exact Option.some_ne_none _)), hfound]

/-- From a type on an endless chain, where no type of the chain has a name yet, the naming
comes back to a type that it has met since, or to one whose name was being made before. -/
theorem returns_or_runs (hset : ∀ z ∈ set, ∃ next ∈ set, registry.Wraps z next)
    (hroom : Room registry fuel path) (hnew : ∀ z ∈ set, naming.names[z]? = none)
    (hnumber : number ∈ set) :
    Returns registry set (registry.nameWithin fuel path naming number).2 ∨
      ∃ last ∈ path, Runs registry last number (registry.nameWithin fuel path naming number).1 := by
  -- on the fuel; each type that is met goes on the path, and `Room` says that this cannot end
  -- for want of fuel
  induction fuel generalizing path number with
  | zero => exact absurd rfl hroom.ne_zero
  | succ fuel ih =>
    obtain ⟨next, hnext, hwraps⟩ := hset number hnumber
    obtain ⟨entry, before, after, hentry, hrule, haround⟩ := hwraps.rule
    have hstep := nameWithin_step registry fuel path naming number
    generalize registry.nameWithin (fuel + 1) path naming number = result at hstep ⊢
    cases hstep with
    | recorded hname =>
      rw [hnew number hnumber] at hname
      cases hname
    | stopped _ hstop =>
      obtain hnone | hpath := hstop
      · rw [hentry] at hnone
        cases hnone
      · exact .inr ⟨number, hpath, .stop⟩
    | fixed _ hsame _ hother | own _ hsame _ hother =>
      rw [hentry] at hsame
      cases hsame
      rw [hrule] at hother
      cases hother
    | around _ hsame hpath hother hbelow =>
      rw [hentry] at hsame
      cases hsame
      rw [hrule] at hother
      cases hother
      cases hbelow
      -- `number` is on the path while the next type is named, so it gets no name meanwhile
      have hunrecorded : (registry.nameWithin fuel (number :: path) naming next).2.names[number]? =
          none := by
        rw [names_nameWithin fuel (.inl List.mem_cons_self), hnew number hnumber]
      obtain hreturns | ⟨last, hlast, hruns⟩ := ih (hroom.cons hpath hentry) hnext
      · exact .inl (hreturns.record hunrecorded _)
      · -- the chain comes back to `number`, which is recorded now, or to a type before it
        rcases List.mem_cons.1 hlast with rfl | hlast
        · refine .inl ⟨last, hnumber, next, _, _, ?_, haround _, hruns⟩
          rw [Naming.getElem?_record, if_pos rfl]
        · exact .inr ⟨last, hlast, .wrap (haround _) hruns⟩

/-- Either no type of the set has a name yet, or one has a name around its own reference. -/
def Pending (registry : Registry) (set : Set UInt32) (naming : Naming) : Prop :=
  Returns registry set naming ∨ ∀ z ∈ set, naming.names[z]? = none

theorem Around.wraps (h : Around registry outer inner text name) : registry.Wraps outer inner := by
  cases h with
  | @container entry container hentry hcontainer =>
    exact .inl ⟨entry, container, hentry, hcontainer⟩
  | newtype htakes => exact .inr htakes

/-- A chain does not leave a set in which each type has a link. -/
theorem Runs.mem (hset : ∀ z ∈ set, ∃ next ∈ set, registry.Wraps z next) {last : UInt32}
    (h : Runs registry last number text) (hnumber : number ∈ set) : last ∈ set := by
  induction h with
  | stop => exact hnumber
  | wrap haround _ ih =>
    obtain ⟨next, hnext, hwraps⟩ := hset _ hnumber
    exact ih (haround.wraps.functional hwraps ▸ hnext)

/-- The first name of the chain is made when none of its types is on the path, so it can
come back to nothing but itself. -/
theorem pending_nameWithin (hset : ∀ z ∈ set, ∃ next ∈ set, registry.Wraps z next)
    (hroom : Room registry fuel path) (hpath : ∀ z ∈ set, z ∉ path)
    (h : Pending registry set naming) (number : UInt32) :
    Pending registry set (registry.nameWithin fuel path naming number).2 := by
  induction fuel generalizing path naming number with
  | zero => exact h
  | succ fuel ih =>
    obtain h | hnone := h
    · exact .inl (h.nameWithin (fuel + 1) path number)
    by_cases hnumber : number ∈ set
    · obtain hreturns | ⟨last, hlast, hruns⟩ := returns_or_runs hset hroom hnone hnumber
      · exact .inl hreturns
      · exact absurd hlast (hpath last (hruns.mem hset hnumber))
    · -- off the set, the record is harmless, and only the types below can come to the set
      have hother : ∀ z ∈ set, number ≠ z := by
        rintro z hz rfl
        exact hnumber hz
      have hstep := nameWithin_step registry fuel path naming number
      generalize registry.nameWithin (fuel + 1) path naming number = result at hstep ⊢
      cases hstep with
      | recorded _ | stopped _ _ => exact .inr hnone
      | fixed _ _ _ _ | own _ _ _ _ =>
        refine .inr fun z hz => ?_
        rw [Naming.getElem?_record, if_neg (hother z hz)]
        exact hnone z hz
      | @around _ _ _ inners _ _ hnew hentry hmade _ hbelow =>
        have hpath' : ∀ z ∈ set, z ∉ number :: path := fun z hz hmem =>
          (List.mem_cons.1 hmem).elim (fun heq => hother z hz heq.symm) (hpath z hz)
        have hall : ∀ between : Naming, ∀ n ∈ inners,
            (between.names[number]? = none ∧ Pending registry set between) →
            (registry.nameWithin fuel (number :: path) between n).2.names[number]? = none ∧
              Pending registry set (registry.nameWithin fuel (number :: path) between n).2 := by
          rintro between n - ⟨hunrecorded, hbetween⟩
          refine ⟨?_, ih (hroom.cons hmade hentry) hpath' hbetween n⟩
          rw [names_nameWithin fuel (.inl List.mem_cons_self), hunrecorded]
        obtain ⟨hunrecorded, hrest⟩ := Naming.forAll_preserves hall ⟨hnew, .inr hnone⟩
        rw [hbelow] at hunrecorded hrest
        obtain hreturns | hnone := hrest
        · exact .inl (hreturns.record hunrecorded _)
        · refine .inr fun z hz => ?_
          rw [Naming.getElem?_record, if_neg (hother z hz)]
          exact hnone z hz

/-- Where the links of a set of types never end, a type of it has in the end a name that is
written around its own reference. -/
theorem returns_nameAll (hpositional : registry.Positional)
    (hset : ∀ z ∈ set, ∃ next ∈ set, registry.Wraps z next) (hne : set.Nonempty) :
    Returns registry set registry.nameAll := by
  have hstart : Pending registry set .empty := .inr fun z _ => by simp [Naming.empty]
  have hstep : ∀ naming : Naming, ∀ entry ∈ registry.types.toList,
      Pending registry set naming → Pending registry set (registry.nameOf naming entry.id).2 :=
    fun naming entry _ h => pending_nameWithin hset (.start registry) (by simp) h entry.id
  obtain hreturns | hnone := nameAll_induct hstart hstep
  · exact hreturns
  · obtain ⟨number, hnumber⟩ := hne
    obtain ⟨next, -, hwraps⟩ := hset number hnumber
    obtain ⟨entry, -, -, hentry, -⟩ := hwraps.rule
    exact absurd (hnone number hnumber) (recorded_nameAll hpositional hentry)

end ScaleCalls.Registry
