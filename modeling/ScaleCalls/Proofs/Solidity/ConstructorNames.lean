import ScaleCalls.Proofs.Lists
import ScaleCalls.Proofs.Solidity.Identifier
import ScaleCalls.Proofs.Solidity.Numbering
import ScaleCalls.Solidity.Lowering

/-!
# Constructors and members of the tag enum

A variant has two names, each from a scope of its own: a constructor in camel case, and a member
of the tag enum in Pascal case. The first starts with a small letter and the second with a
capital one, unless the variant starts with a digit. Then both bases are the same text, which
starts with an underscore, and the two scopes have given out the same names of this kind. So
the names of different variants never meet.

## Main definitions

- `StartsWith` — the first character of a name
- `Scope.AgreeOn` — two scopes in which the same names with a first character are taken

## Main statements

- `cases_pascal_camel` — how the two names of a text start
- `Scope.forall₂_claimAll` — two scopes give the same names with a first character
- `Lowering.eq_of_name_eq_member` — a member is a constructor of its own variant only
-/

namespace ScaleCalls

namespace Solidity

variable {s : String} {c : Char} {cs w : List Char}

/-- A name with this first character. -/
def StartsWith (c : Char) (name : String) : Prop := name.toList.head? = some c

instance (c : Char) (name : String) : Decidable (StartsWith c name) :=
  inferInstanceAs (Decidable (_ = _))

theorem StartsWith.ne_empty (h : StartsWith c s) : s ≠ "" := by
  rintro rfl
  cases h

theorem StartsWith.unique {c' : Char} (h : StartsWith c s) (h' : StartsWith c' s) : c = c' :=
  Option.some.inj (h.symm.trans h')

/-! ## The first letter of a converted name -/

theorem startsWith_guardReserved (h : StartsWith c s) : StartsWith c (guardReserved s) := by
  rw [guardReserved]
  split
  · rw [StartsWith, String.toList_append, List.head?_append, h, Option.some_or]
  · exact h

/-- A converted name keeps the first character of its words, unless that is a digit. -/
theorem startsWith_finish (blank c : Char) (cs : List Char) :
    StartsWith (if c.isDigit then '_' else c) (finish blank (c :: cs)) := by
  refine startsWith_guardReserved ?_
  rw [StartsWith, String.toList_ofList, List.isEmpty_cons, if_neg Bool.false_ne_true, guardDigit]
  split <;> rfl

/-- The two names of a text are the same, with an underscore in front of a digit, or one
starts with a capital letter and the other one with a small letter. -/
theorem cases_pascal_camel (s : String) :
    (pascal s = camel s ∧ StartsWith '_' (camel s)) ∨
      ∃ upper lower : Char, upper.isUpper ∧ lower.isLower ∧ StartsWith upper (pascal s) ∧
        StartsWith lower (camel s) := by
  rw [pascal, camel]
  cases hwords : words s.toList with
  | nil => exact .inr ⟨'X', 'x', rfl, rfl, by decide +kernel, by decide +kernel⟩
  | cons first rest =>
    have hfirst : first ∈ words s.toList := hwords ▸ List.mem_cons_self
    have hne : first ≠ [] := by simpa using (List.mem_filter.1 hfirst).2
    obtain ⟨c, w, rfl⟩ := List.exists_cons_of_ne_nil hne
    have hword : isWordChar c := isWordChar_of_mem_words hfirst List.mem_cons_self
    rw [List.flatMap_cons]
    dsimp only [capitalize, uncapitalize]
    rw [List.cons_append, List.cons_append]
    by_cases hc : c.isAlpha
    · refine .inr ⟨c.toUpper, c.toLower, by simpa using hc, by simpa using hc, ?_, ?_⟩
      · have hdigit : ¬ c.toUpper.isDigit :=
          Text.not_isDigit_of_isAlpha (by simpa using hc)
        simpa only [if_neg hdigit] using startsWith_finish 'X' c.toUpper _
      · have hdigit : ¬ c.toLower.isDigit :=
          Text.not_isDigit_of_isAlpha (by simpa using hc)
        simpa only [if_neg hdigit] using startsWith_finish 'x' c.toLower _
    · -- a digit has no case, and the blank does not matter where there are words
      have hdigit : c.isDigit := by simpa [isWordChar, Char.isAlphanum, hc] using hword
      rw [(Text.toUpper_cases c).resolve_right fun h => hc h.1,
        (Text.toLower_cases c).resolve_right fun h => hc h.1]
      refine .inl ⟨by rw [finish, finish]; rfl, ?_⟩
      simpa only [if_pos hdigit] using startsWith_finish 'x' c _

theorem pascal_ne_empty (s : String) : pascal s ≠ "" := by
  obtain ⟨heq, h⟩ | ⟨_, _, -, -, h, -⟩ := cases_pascal_camel s
  · exact heq ▸ h.ne_empty
  · exact h.ne_empty

theorem camel_ne_empty (s : String) : camel s ≠ "" := by
  obtain ⟨-, h⟩ | ⟨_, _, -, -, -, h⟩ := cases_pascal_camel s
  · exact h.ne_empty
  · exact h.ne_empty

end Solidity

/-! ## Names from two scopes -/

namespace Scope

open Solidity

variable {first second scope : Scope} {base : String} {c : Char}

/-- The same names with this first character are taken in two scopes. -/
def AgreeOn (c : Char) (first second : Scope) : Prop :=
  ∀ name, StartsWith c name → (first.isTaken name ↔ second.isTaken name)

theorem startsWith_candidate (n : Nat) (hne : base ≠ "") :
    StartsWith c (candidate base n) ↔ StartsWith c base := by
  obtain ⟨a, w, hbase⟩ := List.exists_cons_of_ne_nil (mt String.toList_eq_nil_iff.1 hne)
  rw [StartsWith, StartsWith, toList_candidate, hbase, List.cons_append, List.head?_cons,
    List.head?_cons]

/-- A suffix does not change how a name starts. -/
theorem startsWith_nameFor (scope : Scope) (hne : base ≠ "") :
    StartsWith c (scope.nameFor base) ↔ StartsWith c base := by
  by_cases htaken : scope.isTaken base
  · obtain ⟨k, heq, -⟩ := nameFor_of_isTaken htaken
    rw [heq, startsWith_candidate _ hne]
  · rw [nameFor_of_not_isTaken htaken]

/-- Where the same names are taken, the same name is given. -/
theorem AgreeOn.nameFor_eq (h : AgreeOn c first second) (hbase : StartsWith c base) :
    first.nameFor base = second.nameFor base := by
  have hcandidates : ∀ n, first.isTaken (candidate base n) ↔ second.isTaken (candidate base n) :=
    fun n => h _ ((startsWith_candidate n hbase.ne_empty).2 hbase)
  by_cases htaken : first.isTaken base
  · obtain ⟨k, heq, hbefore, hfree⟩ := nameFor_of_isTaken htaken
    obtain ⟨k', heq', hbefore', hfree'⟩ := nameFor_of_isTaken ((h base hbase).1 htaken)
    -- of two first free candidates none comes before the other
    have hle : ¬ k < k' := fun hlt => hfree ((hcandidates _).2 (hbefore' k hlt))
    have hge : ¬ k' < k := fun hlt => hfree' ((hcandidates _).1 (hbefore k' hlt))
    rw [heq, heq', show k = k' by omega]
  · rw [nameFor_of_not_isTaken htaken, nameFor_of_not_isTaken (mt (h base hbase).2 htaken)]

/-- Names that start otherwise do not count. -/
theorem AgreeOn.claim {a b : String} (h : AgreeOn c first second)
    (hname : StartsWith c (first.nameFor a) ∨ StartsWith c (second.nameFor b) →
      first.nameFor a = second.nameFor b) :
    AgreeOn c (first.claim a).2 (second.claim b).2 := by
  intro name hstart
  rw [isTaken_claim_iff, isTaken_claim_iff, h name hstart]
  refine or_congr_left ⟨?_, ?_⟩
  · rintro rfl
    exact (hname (.inl hstart)).symm
  · rintro rfl
    exact hname (.inr hstart)

/-- Two scopes in which the same names with a first character are taken give the same names
of this kind for two lists, if these have the same bases of this kind at the same places. -/
theorem forall₂_claimAll {as bs : List String} (h : AgreeOn c first second)
    (hbases : List.Forall₂ (fun a b => a ≠ "" ∧ b ≠ "" ∧
      (StartsWith c a ∨ StartsWith c b → a = b)) as bs) :
    List.Forall₂ (fun x y => StartsWith c x ∨ StartsWith c y → x = y)
      (first.claimAll as) (second.claimAll bs) := by
  induction hbases generalizing first second with
  | nil => exact .nil
  | @cons a b as bs hab _ ih =>
    obtain ⟨ha, hb, hsame⟩ := hab
    have hname : StartsWith c (first.nameFor a) ∨ StartsWith c (second.nameFor b) →
        first.nameFor a = second.nameFor b := by
      rw [startsWith_nameFor first ha, startsWith_nameFor second hb]
      intro hstart
      obtain rfl := hsame hstart
      exact h.nameFor_eq (or_self_iff.1 hstart)
    exact .cons hname (ih (h.claim hname))

/-- The names that are given start like the bases that asked for them. -/
theorem forall₂_startsWith_claimAll (scope : Scope) {bases : List String}
    (hne : ∀ base ∈ bases, base ≠ "") :
    List.Forall₂ (fun name base => ∀ c, StartsWith c name ↔ StartsWith c base)
      (scope.claimAll bases) bases := by
  induction bases generalizing scope with
  | nil => exact .nil
  | cons base bases ih =>
    exact .cons (fun c => startsWith_nameFor scope (hne base List.mem_cons_self))
      (ih _ fun b hb => hne b (List.mem_cons_of_mem _ hb))

end Scope

/-! ## The two names of the variants of an enum -/

namespace Solidity.Lowering

variable {variants : List Variant}

/-- A constructor starts with an underscore or with a small letter. -/
theorem startsWith_of_mem_constructorNames {name : String}
    (h : name ∈ constructorNames variants) :
    StartsWith '_' name ∨ ∃ lower : Char, lower.isLower ∧ StartsWith lower name := by
  obtain ⟨base, hbase, hstart⟩ := exists_of_mem_forall₂
    (Scope.forall₂_startsWith_claimAll _ (by simp [camel_ne_empty])) h
  obtain ⟨v, -, rfl⟩ := List.mem_map.1 hbase
  obtain ⟨-, hunderscore⟩ | ⟨-, lower, -, hlower, -, hcamel⟩ := cases_pascal_camel v.name
  · exact .inl ((hstart _).2 hunderscore)
  · exact .inr ⟨lower, hlower, (hstart _).2 hcamel⟩

/-- A member of a tag enum starts with an underscore or with a capital letter. -/
theorem startsWith_of_mem_tagMembers {name : String} (h : name ∈ tagMembers variants) :
    StartsWith '_' name ∨ ∃ upper : Char, upper.isUpper ∧ StartsWith upper name := by
  obtain ⟨base, hbase, hstart⟩ := exists_of_mem_forall₂
    (Scope.forall₂_startsWith_claimAll _ (by simp [pascal_ne_empty])) h
  obtain ⟨v, -, rfl⟩ := List.mem_map.1 hbase
  obtain ⟨heq, hunderscore⟩ | ⟨upper, -, hupper, -, hpascal, -⟩ := cases_pascal_camel v.name
  · exact .inl ((hstart _).2 (heq ▸ hunderscore))
  · exact .inr ⟨upper, hupper, (hstart _).2 hpascal⟩

/-- A variant whose constructor starts with an underscore has the same name as a member. -/
theorem forall₂_constructorNames (variants : List Variant) :
    List.Forall₂ (fun name member => StartsWith '_' name ∨ StartsWith '_' member → name = member)
      (constructorNames variants) (tagMembers variants) := by
  refine Scope.forall₂_claimAll ?_ ?_
  · -- the name that is reserved for codec libraries starts otherwise
    intro name hname
    have hne : name ≠ "encode" := by
      rintro rfl
      have hletter : StartsWith 'e' "encode" := by decide +kernel
      exact absurd (hname.unique hletter) (by decide)
    rw [Scope.isTaken_reserving, List.mem_singleton]
    exact iff_of_false hne (Scope.not_isTaken_empty name)
  · rw [List.forall₂_map_left_iff, List.forall₂_map_right_iff, List.forall₂_same]
    intro v _
    refine ⟨camel_ne_empty _, pascal_ne_empty _, fun hstart => ?_⟩
    obtain ⟨heq, -⟩ | ⟨upper, lower, hupper, hlower, hpascal, hcamel⟩ := cases_pascal_camel v.name
    · exact heq.symm
    · obtain hstart | hstart := hstart
      · obtain rfl := hcamel.unique hstart
        cases hlower
      · obtain rfl := hpascal.unique hstart
        cases hupper

/-- A text that is a constructor and a member of the tag enum is both for one variant. -/
theorem eq_of_name_eq_member {i j : Nat} {name : String}
    (hname : (constructorNames variants)[i]? = some name)
    (hmember : (tagMembers variants)[j]? = some name) : i = j := by
  have hunderscore : StartsWith '_' name := by
    obtain h | ⟨lower, hlower, h⟩ :=
      startsWith_of_mem_constructorNames (List.mem_of_getElem? hname)
    · exact h
    · obtain h' | ⟨upper, hupper, h'⟩ := startsWith_of_mem_tagMembers (List.mem_of_getElem? hmember)
      · exact h'
      · obtain rfl := h.unique h'
        exact absurd hlower (Char.not_isLower_of_isUpper hupper)
  -- the member of the variant of this constructor is the same text, and members are different
  have hsame : (tagMembers variants)[i]? = some name := by
    obtain ⟨member, hget, hsame⟩ :=
      exists_getElem?_of_forall₂ (forall₂_constructorNames variants) hname
    rw [hget, hsame (.inl hunderscore)]
  exact eq_of_getElem?_eq_some (Scope.nodup_claimAll _ _) hsame hmember

example : let variants := ["encode", "Encode", "1st", "1ST", "!!", "x", "new"].map (⟨·, 0, []⟩)
    constructorNames variants = ["encode_2", "encode_3", "_1st", "_1ST", "x", "x_2", "new_"] ∧
      tagMembers variants = ["Encode", "Encode_2", "_1st", "_1ST", "X", "X_2", "New"] := by
  decide +kernel

end Solidity.Lowering

end ScaleCalls
