import ScaleCalls.Proofs.Characters
import ScaleCalls.Solidity.Identifier

/-!
# Converted names are identifiers

The words of a text hold letters and digits only, and changing the case of a letter gives
a letter. So a name in Pascal or camel case has no other characters than an identifier
may have, and it does not start with a digit.

## Main statements

- `Solidity.isIdentifier_pascal`, `Solidity.isIdentifier_camel`
- `Solidity.isIdentifier_append` — what may stand behind an identifier
-/

namespace ScaleCalls.Solidity

variable {s t : String} {cs w : List Char} {c blank : Char}

theorem isWordChar_of_isAlpha (h : c.isAlpha) : isWordChar c := by
  rw [isWordChar, Char.isAlphanum, h, Bool.true_or]

@[simp] theorem isWordChar_toUpper (c : Char) : isWordChar c.toUpper = isWordChar c := by
  obtain hsame | ⟨hc, hupper⟩ := Text.toUpper_cases c
  · rw [hsame]
  · rw [isWordChar_of_isAlpha hc, isWordChar_of_isAlpha hupper]

@[simp] theorem isWordChar_toLower (c : Char) : isWordChar c.toLower = isWordChar c := by
  obtain hsame | ⟨hc, hlower⟩ := Text.toLower_cases c
  · rw [hsame]
  · rw [isWordChar_of_isAlpha hc, isWordChar_of_isAlpha hlower]

theorem isWordChar_of_mem_pieces (hw : w ∈ pieces cs) (hc : c ∈ w) : isWordChar c := by
  induction cs generalizing w with
  | nil =>
    rw [List.mem_singleton.1 hw] at hc
    cases hc
  | cons a cs ih =>
    rw [pieces] at hw
    split at hw
    · rename_i ha
      cases hpieces : pieces cs with
      | nil => rw [hpieces] at hw; cases hw
      | cons first rest =>
        rw [hpieces, List.modifyHead_cons, List.mem_cons] at hw
        obtain rfl | hw := hw
        · obtain rfl | hc := List.mem_cons.1 hc
          · exact ha
          · exact ih (hpieces ▸ List.mem_cons_self) hc
        · exact ih (hpieces ▸ List.mem_cons_of_mem _ hw) hc
    · obtain rfl | hw := List.mem_cons.1 hw
      · cases hc
      · exact ih hw hc

theorem isWordChar_of_mem_words (hw : w ∈ words cs) (hc : c ∈ w) : isWordChar c :=
  isWordChar_of_mem_pieces (List.mem_filter.1 hw).1 hc

theorem isWordChar_of_mem_capitalize (hw : ∀ c ∈ w, isWordChar c) (hc : c ∈ capitalize w) :
    isWordChar c := by
  cases w with
  | nil => cases hc
  | cons a w =>
    obtain rfl | hc := List.mem_cons.1 hc
    · rw [isWordChar_toUpper]
      exact hw a List.mem_cons_self
    · exact hw c (List.mem_cons_of_mem _ hc)

theorem isWordChar_of_mem_uncapitalize (hw : ∀ c ∈ w, isWordChar c) (hc : c ∈ uncapitalize w) :
    isWordChar c := by
  cases w with
  | nil => cases hc
  | cons a w =>
    obtain rfl | hc := List.mem_cons.1 hc
    · rw [isWordChar_toLower]
      exact hw a List.mem_cons_self
    · exact hw c (List.mem_cons_of_mem _ hc)

theorem isWordChar_of_mem_flatMap {ws : List (List Char)} (hws : ∀ w ∈ ws, ∀ c ∈ w, isWordChar c)
    (hc : c ∈ ws.flatMap capitalize) : isWordChar c := by
  obtain ⟨w, hw, hc⟩ := List.mem_flatMap.1 hc
  exact isWordChar_of_mem_capitalize (hws w hw) hc

/-- Words joined in camel case. -/
def joinCamel : List (List Char) → List Char
  | [] => []
  | first :: rest => uncapitalize first ++ rest.flatMap capitalize

theorem camel_eq_finish (s : String) : camel s = finish 'x' (joinCamel (words s.toList)) := rfl

theorem isWordChar_of_mem_joinCamel {ws : List (List Char)}
    (hws : ∀ w ∈ ws, ∀ c ∈ w, isWordChar c) (hc : c ∈ joinCamel ws) : isWordChar c := by
  cases ws with
  | nil => cases hc
  | cons first rest =>
    obtain hc | hc := List.mem_append.1 hc
    · exact isWordChar_of_mem_uncapitalize (hws first List.mem_cons_self) hc
    · exact isWordChar_of_mem_flatMap (fun w hw => hws w (List.mem_cons_of_mem _ hw)) hc

theorem isIdentifierChar_of_isWordChar (h : isWordChar c) : isIdentifierChar c := by
  rw [isIdentifierChar, h, Bool.true_or]

theorem isIdentifier_of_toList (h : s.toList = c :: cs) :
    isIdentifier s = (!c.isDigit && (c :: cs).all isIdentifierChar) := by
  rw [isIdentifier, h]

theorem isIdentifier_ofList_guardDigit (hne : cs ≠ []) (hcs : ∀ c ∈ cs, isWordChar c) :
    isIdentifier (String.ofList (guardDigit cs)) := by
  cases cs with
  | nil => exact absurd rfl hne
  | cons a cs =>
    have hall : (a :: cs).all isIdentifierChar := List.all_eq_true.2 fun c hc =>
      isIdentifierChar_of_isWordChar (hcs c hc)
    rw [guardDigit]
    split
    · -- an underscore stands in front of the digit
      rw [isIdentifier_of_toList String.toList_ofList, List.all_cons, hall]
      rfl
    · rename_i hdigit
      rw [isIdentifier_of_toList String.toList_ofList, hall, Bool.and_true, Bool.not_eq_true']
      exact Bool.not_eq_true _ ▸ hdigit

/-- What consists of characters of identifiers may stand behind an identifier. -/
theorem isIdentifier_append (hs : isIdentifier s) (ht : t.toList.all isIdentifierChar) :
    isIdentifier (s ++ t) := by
  cases hlist : s.toList with
  | nil => rw [isIdentifier, hlist] at hs; cases hs
  | cons c cs =>
    have happend : (s ++ t).toList = c :: (cs ++ t.toList) := by
      rw [String.toList_append, hlist, List.cons_append]
    rw [isIdentifier_of_toList hlist] at hs
    rw [isIdentifier_of_toList happend, ← List.cons_append, List.all_append, ht, Bool.and_true]
    exact hs

theorem isIdentifier_guardReserved (h : isIdentifier s) : isIdentifier (guardReserved s) := by
  rw [guardReserved]
  by_cases hreserved : isReserved s = true
  · rw [if_pos hreserved]
    exact isIdentifier_append h (by decide)
  · rw [if_neg hreserved]
    exact h

theorem isIdentifier_finish (hblank : isWordChar blank) (hcs : ∀ c ∈ cs, isWordChar c) :
    isIdentifier (finish blank cs) := by
  refine isIdentifier_guardReserved ?_
  by_cases hempty : cs.isEmpty = true
  · rw [if_pos hempty]
    exact isIdentifier_ofList_guardDigit (List.cons_ne_nil _ _) (by simpa using hblank)
  · rw [if_neg hempty]
    exact isIdentifier_ofList_guardDigit (by simpa using hempty) hcs

theorem isIdentifier_pascal (s : String) : isIdentifier (pascal s) :=
  isIdentifier_finish (by decide) fun _ hc =>
    isWordChar_of_mem_flatMap (fun _ hw _ => isWordChar_of_mem_words hw) hc

theorem isIdentifier_camel (s : String) : isIdentifier (camel s) :=
  isIdentifier_finish (by decide) fun _ hc =>
    isWordChar_of_mem_joinCamel (fun _ hw _ => isWordChar_of_mem_words hw) hc

theorem isIdentifier_libraryName (group : String) : isIdentifier (libraryName group) :=
  isIdentifier_append (isIdentifier_pascal group) (by decide)

theorem isIdentifierChar_of_isIdentifier (h : isIdentifier s) (hc : c ∈ s.toList) :
    isIdentifierChar c := by
  cases hlist : s.toList with
  | nil => rw [hlist] at hc; cases hc
  | cons a cs =>
    rw [isIdentifier_of_toList hlist] at h
    rw [hlist] at hc
    exact List.all_eq_true.1 (Bool.and_eq_true_iff.1 h).2 c hc

end ScaleCalls.Solidity
