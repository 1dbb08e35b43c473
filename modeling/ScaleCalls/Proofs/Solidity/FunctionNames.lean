import ScaleCalls.Proofs.Solidity.Identifier
import ScaleCalls.Proofs.Solidity.Numbering

/-!
# The names of functions have no suffix

A name in camel case holds at most one underscore: at its start, in front of a digit, or at
its end, behind a reserved word. The name of a function joins two such names with an
underscore, and no such join reads like another one with a number behind it. So a scope
that hands out the names of functions does no more than count.

## Main definitions

- `CamelForm` — the three shapes of a name in camel case

## Main statements

- `camelForm_camel` — names in camel case have one of these shapes
- `candidate_functionName_ne` — no name of a function is another one with a suffix
-/

namespace ScaleCalls.Solidity

variable {s : String} {cs g w : List Char} {c : Char}

/-- The characters of a name in camel case. -/
inductive CamelForm : List Char → Prop
  /-- The characters of words, the first of them no digit. -/
  | plain {c : Char} {w : List Char} (hc : ¬ c.isDigit) (h : ∀ a ∈ c :: w, isWordChar a) :
      CamelForm (c :: w)
  /-- An underscore in front of a digit. -/
  | guarded {w : List Char} (hne : w ≠ []) (h : ∀ a ∈ w, isWordChar a) : CamelForm ('_' :: w)
  /-- A reserved word with an underscore at its end. -/
  | reserved {w : List Char} (hne : w ≠ []) (h : ∀ a ∈ w, isWordChar a) : CamelForm (w ++ ['_'])

theorem underscore_not_mem (h : ∀ c ∈ w, isWordChar c) : '_' ∉ w := fun hmem =>
  absurd (h _ hmem) (by decide)

/-- A reserved word is not empty, and it has the characters of words only. -/
theorem isWordChar_of_isReserved (h : isReserved s) :
    s.toList ≠ [] ∧ ∀ c ∈ s.toList, isWordChar c := by
  have hall : (reservedWords.all fun word => word.toList != [] && word.toList.all isWordChar) := by
    decide +kernel
  simpa using List.all_eq_true.1 hall s (List.contains_iff_mem.1 h)

theorem camelForm_finish {blank : Char} (hblank : isWordChar blank)
    (hcs : ∀ c ∈ cs, isWordChar c) : CamelForm (finish blank cs).toList := by
  obtain ⟨a, w, hjoined, hall⟩ : ∃ a w, (if cs.isEmpty then [blank] else cs) = a :: w ∧
      ∀ c ∈ a :: w, isWordChar c := by
    cases cs with
    | nil => exact ⟨blank, [], rfl, by simpa using hblank⟩
    | cons a w => exact ⟨a, w, rfl, hcs⟩
  rw [finish, hjoined, guardReserved]
  split
  · rename_i hreserved
    obtain ⟨hne, hword⟩ := isWordChar_of_isReserved hreserved
    rw [String.toList_append]
    exact .reserved hne hword
  · rw [String.toList_ofList, guardDigit]
    split
    · exact .guarded (List.cons_ne_nil a w) hall
    · rename_i hdigit
      exact .plain hdigit hall

theorem camelForm_camel (s : String) : CamelForm (camel s).toList :=
  camelForm_finish (by decide) fun _ hc =>
    isWordChar_of_mem_joinCamel (fun _ hw _ => isWordChar_of_mem_words hw) hc

theorem CamelForm.ne_nil (h : CamelForm cs) : cs ≠ [] := by
  cases h with
  | plain => exact List.cons_ne_nil _ _
  | guarded => exact List.cons_ne_nil _ _
  | reserved hne => exact List.append_ne_nil_of_left_ne_nil hne _

/-- A name in camel case has no underscore between other characters. -/
theorem CamelForm.not_inner (h : CamelForm (g ++ '_' :: w)) (hg : g ≠ []) (hw : w ≠ [])
    (hword : ∀ c ∈ w, isWordChar c) : False := by
  cases hcs : g ++ '_' :: w with
  | nil => exact hg (List.append_eq_nil_iff.1 hcs).1
  | cons a rest =>
    obtain ⟨first, g, rfl⟩ := List.exists_cons_of_ne_nil hg
    have hinner : '_' ∈ rest := by
      rw [List.cons_append] at hcs
      exact (List.cons.inj hcs).2 ▸ List.mem_append_right g List.mem_cons_self
    rw [hcs] at h
    generalize hall : a :: rest = cs at h
    cases h with
    | plain _ h =>
      obtain ⟨rfl, rfl⟩ := List.cons.inj hall
      exact underscore_not_mem h (List.mem_cons_of_mem _ hinner)
    | guarded _ h =>
      obtain ⟨-, rfl⟩ := List.cons.inj hall
      exact underscore_not_mem h hinner
    | reserved _ h =>
      obtain ⟨-, rfl⟩ := Scope.append_cons_inj (underscore_not_mem hword) List.not_mem_nil
        (hcs.trans hall)
      exact hw rfl

/-- A name in camel case that ends in an underscore is a reserved word before it. -/
theorem CamelForm.eq_reserved {front : List Char} (h : CamelForm (front ++ ['_'])) :
    front ≠ [] ∧ ∀ c ∈ front, isWordChar c := by
  generalize hcs : front ++ ['_'] = cs at h
  have hlast : '_' ∈ cs := hcs ▸ List.mem_append_right _ List.mem_cons_self
  cases h with
  | plain _ h => exact absurd hlast (underscore_not_mem h)
  | @guarded w hne h =>
    have hstart : front ++ '_' :: [] = [] ++ '_' :: w := hcs
    obtain ⟨-, rfl⟩ := Scope.append_cons_inj List.not_mem_nil (underscore_not_mem h) hstart
    exact absurd rfl hne
  | reserved hne h =>
    obtain ⟨rfl, -⟩ := Scope.append_cons_inj List.not_mem_nil List.not_mem_nil hcs
    exact ⟨hne, h⟩

/-- Two names in camel case behind each other are not two such names with a number. -/
theorem CamelForm.join_ne {g c g' c' digits : List Char} (hg : CamelForm g) (hc : CamelForm c)
    (hg' : CamelForm g') (hc' : CamelForm c') (hne : digits ≠ [])
    (hdigits : ∀ d ∈ digits, d.isDigit) :
    (g ++ '_' :: c) ++ '_' :: digits ≠ g' ++ '_' :: c' := by
  intro h
  have hnone : '_' ∉ digits := fun hmem => absurd (hdigits _ hmem) (by decide)
  cases hc' with
  | plain hfirst hword =>
    -- the number would be the whole second name
    obtain ⟨-, rfl⟩ := Scope.append_cons_inj hnone (underscore_not_mem hword) h
    exact hfirst (hdigits _ List.mem_cons_self)
  | @guarded w _ hword =>
    -- the first name would end in an underscore, with another one inside
    rw [List.append_cons g'] at h
    obtain ⟨hfront, rfl⟩ := Scope.append_cons_inj hnone (underscore_not_mem hword) h
    obtain ⟨front, last, rfl⟩ := (List.eq_nil_or_concat c).resolve_left hc.ne_nil
    rw [List.concat_eq_append] at hc hfront
    rw [← List.cons_append, ← List.append_assoc] at hfront
    obtain ⟨rfl, hlast⟩ := List.append_inj' hfront rfl
    obtain rfl := List.singleton_inj.1 hlast
    obtain ⟨hne', hword'⟩ := hc.eq_reserved
    exact hg'.not_inner hg.ne_nil hne' hword'
  | @reserved w _ hword =>
    rw [← List.cons_append, ← List.append_assoc] at h
    obtain ⟨-, rfl⟩ := Scope.append_cons_inj hnone List.not_mem_nil h
    exact hne rfl

theorem toList_functionName (group call : String) : (functionName group call).toList =
    (camel group).toList ++ '_' :: (camel call).toList := by
  simp [functionName, toString]

/-- The name of a function with a suffix is not the name of a function. -/
theorem candidate_functionName_ne (group call group' call' : String) (n : Nat) :
    Scope.candidate (functionName group call) n ≠ functionName group' call' := by
  intro h
  have hlist := congrArg String.toList h
  rw [Scope.toList_candidate, toList_functionName, toList_functionName] at hlist
  exact (camelForm_camel group).join_ne (camelForm_camel call) (camelForm_camel group')
    (camelForm_camel call') Nat.toDigits_ne_nil (fun _ => Text.isDigit_of_mem_toDigits) hlist

end ScaleCalls.Solidity
