import ScaleCalls.Proofs.Solidity.ConstructorNames
import ScaleCalls.Proofs.Solidity.FreshNames
import ScaleCalls.Proofs.Solidity.FunctionNames

/-!
# Converted names can be used, and they are stable

A converted name holds one word: its characters of words are those that were joined, with at
most an underscore before or behind them. So converting it again finds this word, whose first
letter has its case already, and gives the same name.

Words that Solidity keeps for itself are written in small letters. A name that gets a suffix,
or that starts with a capital letter, therefore is none of them.

## Main definitions

- `Usable` — what Solidity accepts as an identifier
- `Marked` — names with a character that is no small letter and no digit

## Main statements

- `usable_pascal`, `usable_camel` — names in both cases can be used
- `pascal_pascal`, `camel_camel` — converting them again changes nothing
- `usable_nameFor`, `usable_of_mem_claimAll` — so can the names that scopes make of them
-/

namespace ScaleCalls

namespace Solidity

variable {s t name base : String} {cs w : List Char} {c : Char}

/-- A name that Solidity accepts as an identifier: letters, digits and underscores, at least
one of them and no digit at first, and none of the words that it keeps for itself. -/
structure Usable (name : String) : Prop where
  ne_empty : name ≠ ""
  chars : ∀ c ∈ name.toList, c.isAlphanum ∨ c = '_'
  first : ∀ c, StartsWith c name → ¬ c.isDigit
  not_reserved : name ∉ reservedWords

theorem usable_iff : Usable name ↔ isIdentifier name ∧ ¬ isReserved name := by
  have hchar (c : Char) : isIdentifierChar c ↔ c.isAlphanum ∨ c = '_' := by
    simp [isIdentifierChar, isWordChar]
  have hreserved : isReserved name ↔ name ∈ reservedWords := List.contains_iff_mem
  cases hlist : name.toList with
  | nil =>
    obtain rfl := String.toList_eq_nil_iff.1 hlist
    exact ⟨fun h => absurd rfl h.ne_empty, fun h => absurd h.1 (by decide)⟩
  | cons a cs =>
    rw [isIdentifier_of_toList hlist, hreserved, Bool.and_eq_true, Bool.not_eq_true',
      List.all_eq_true, ← hlist]
    simp only [hchar]
    constructor
    · intro h
      exact ⟨⟨by simpa using h.first a (by rw [StartsWith, hlist]; rfl), h.chars⟩, h.not_reserved⟩
    · rintro ⟨⟨hfirst, hchars⟩, hreserved⟩
      refine ⟨?_, hchars, fun c hc => ?_, hreserved⟩
      · rintro rfl
        cases hlist
      · rw [StartsWith, hlist] at hc
        cases hc
        simp [hfirst]

/-! ## Names that are no words of the language -/

theorem isLower_of_isReserved (h : isReserved s) : ∀ c ∈ s.toList, c.isLower := by
  have hall : (reservedWords.all fun word => word.toList.all Char.isLower) := by decide +kernel
  exact List.all_eq_true.1 (List.all_eq_true.1 hall s (List.contains_iff_mem.1 h))

/-- Some character is no small letter and no digit: a capital letter or an underscore, where
the name is an identifier. -/
def Marked (name : String) : Prop := ∃ c ∈ name.toList, ¬ c.isLower ∧ ¬ c.isDigit

theorem Marked.not_isReserved (h : Marked s) : ¬ isReserved s := by
  obtain ⟨c, hc, hlower, -⟩ := h
  exact fun hreserved => hlower (isLower_of_isReserved hreserved c hc)

theorem Marked.append_right (h : Marked s) (t : String) : Marked (s ++ t) := by
  obtain ⟨c, hc, hmark⟩ := h
  exact ⟨c, by rw [String.toList_append]; exact List.mem_append_left _ hc, hmark⟩

theorem marked_of_underscore (h : '_' ∈ s.toList) : Marked s := ⟨'_', h, by decide, by decide⟩

theorem marked_of_startsWith_upper (hc : c.isUpper) (h : StartsWith c s) : Marked s :=
  ⟨c, List.mem_of_head? h, Char.not_isLower_of_isUpper hc,
    Text.not_isDigit_of_isAlpha (by simp [Char.isAlpha, hc])⟩

theorem marked_pascal (s : String) : Marked (pascal s) := by
  obtain ⟨heq, h⟩ | ⟨upper, -, hupper, -, h, -⟩ := cases_pascal_camel s
  · exact heq ▸ marked_of_underscore (List.mem_of_head? h)
  · exact marked_of_startsWith_upper hupper h

theorem marked_functionName (group call : String) : Marked (functionName group call) :=
  marked_of_underscore (by rw [toList_functionName]; simp)

theorem marked_candidate (base : String) (n : Nat) : Marked (Scope.candidate base n) :=
  marked_of_underscore (by rw [Scope.toList_candidate]; simp)

theorem toList_positional (index : Nat) :
    (positional index).toList = '_' :: Nat.toDigits 10 index := by
  simp [positional, toString]

theorem marked_positional (index : Nat) : Marked (positional index) :=
  marked_of_underscore (by rw [toList_positional]; exact List.mem_cons_self)

/-! ## Names that can be used -/

theorem usable_of_marked (hname : isIdentifier name) (hmarked : Marked name) : Usable name :=
  usable_iff.2 ⟨hname, hmarked.not_isReserved⟩

theorem not_isReserved_guardReserved (word : String) : ¬ isReserved (guardReserved word) := by
  rw [guardReserved]
  split
  · exact (marked_of_underscore (by simp)).not_isReserved
  · assumption

theorem usable_pascal (s : String) : Usable (pascal s) :=
  usable_iff.2 ⟨isIdentifier_pascal s, not_isReserved_guardReserved _⟩

theorem usable_camel (s : String) : Usable (camel s) :=
  usable_iff.2 ⟨isIdentifier_camel s, not_isReserved_guardReserved _⟩

theorem all_isIdentifierChar_toDigits (n : Nat) :
    (Nat.toDigits 10 n).all isIdentifierChar := by
  refine List.all_eq_true.2 fun c hc => isIdentifierChar_of_isWordChar ?_
  rw [isWordChar, Char.isAlphanum, Text.isDigit_of_mem_toDigits hc, Bool.or_true]

theorem usable_positional (index : Nat) : Usable (positional index) := by
  refine usable_of_marked ?_ (marked_positional index)
  rw [isIdentifier_of_toList (toList_positional index), List.all_cons,
    all_isIdentifierChar_toDigits]
  rfl

theorem usable_functionName (group call : String) : Usable (functionName group call) := by
  refine usable_of_marked ?_ (marked_functionName group call)
  rw [functionName]
  refine isIdentifier_append (isIdentifier_append (isIdentifier_camel group) (by decide)) ?_
  exact List.all_eq_true.2 fun c hc => isIdentifierChar_of_isIdentifier (isIdentifier_camel call) hc

theorem usable_candidate (h : isIdentifier base) (n : Nat) : Usable (Scope.candidate base n) := by
  refine usable_of_marked ?_ (marked_candidate base n)
  rw [Scope.candidate]
  refine isIdentifier_append (isIdentifier_append h (by decide)) ?_
  simpa [toString] using all_isIdentifierChar_toDigits n

/-- A suffix makes no name useless. -/
theorem usable_nameFor (scope : Scope) (h : Usable base) : Usable (scope.nameFor base) := by
  obtain heq | ⟨n, heq⟩ := Scope.nameFor_cases scope base
  · rwa [heq]
  · rw [heq]
    exact usable_candidate (usable_iff.1 h).1 n

theorem marked_nameFor (scope : Scope) (h : Marked base) : Marked (scope.nameFor base) := by
  obtain heq | ⟨n, heq⟩ := Scope.nameFor_cases scope base
  · rwa [heq]
  · rw [heq]
    exact marked_candidate base n

theorem usable_of_mem_claimAll {scope : Scope} {bases : List String}
    (h : ∀ base ∈ bases, Usable base) (hname : name ∈ scope.claimAll bases) : Usable name := by
  obtain ⟨base, hbase, rfl | ⟨n, rfl⟩⟩ := Scope.exists_base_of_mem_claimAll hname
  · exact h _ hbase
  · exact usable_candidate (usable_iff.1 (h base hbase)).1 n

theorem marked_of_mem_claimAll {scope : Scope} {bases : List String}
    (h : ∀ base ∈ bases, Marked base) (hname : name ∈ scope.claimAll bases) : Marked name := by
  obtain ⟨base, hbase, rfl | ⟨n, rfl⟩⟩ := Scope.exists_base_of_mem_claimAll hname
  · exact h _ hbase
  · exact marked_candidate base n

/-! ## Converting a converted name -/

theorem words_cons_of_not_isWordChar (hc : ¬ isWordChar c) (cs : List Char) :
    words (c :: cs) = words cs := by
  rw [words, pieces, if_neg hc, List.filter_cons_of_neg (by simp), words]

theorem pieces_ne_nil (cs : List Char) : pieces cs ≠ [] := by
  induction cs with
  | nil => exact List.cons_ne_nil _ _
  | cons a cs ih =>
    obtain ⟨first, rest, hpieces⟩ := List.exists_cons_of_ne_nil ih
    rw [pieces, hpieces]
    split <;> exact List.cons_ne_nil _ _

theorem pieces_concat_of_not_isWordChar (hc : ¬ isWordChar c) (cs : List Char) :
    pieces (cs ++ [c]) = pieces cs ++ [[]] := by
  induction cs with
  | nil => simp [pieces, hc]
  | cons a cs ih =>
    obtain ⟨first, rest, hpieces⟩ := List.exists_cons_of_ne_nil (pieces_ne_nil cs)
    rw [List.cons_append, pieces, pieces, ih, hpieces]
    split <;> rfl

theorem words_concat_of_not_isWordChar (hc : ¬ isWordChar c) (cs : List Char) :
    words (cs ++ [c]) = words cs := by
  rw [words, pieces_concat_of_not_isWordChar hc, List.filter_append, words]
  simp

theorem pieces_of_isWordChar (hcs : ∀ c ∈ cs, isWordChar c) : pieces cs = [cs] := by
  induction cs with
  | nil => rfl
  | cons a cs ih =>
    rw [pieces, if_pos (hcs a List.mem_cons_self),
      ih fun c hc => hcs c (List.mem_cons_of_mem _ hc)]
    rfl

/-- The joined words are the one word of the finished name. -/
theorem words_finish (blank : Char) (hne : w ≠ []) (hw : ∀ c ∈ w, isWordChar c) :
    words (finish blank w).toList = [w] := by
  have hunderscore : ¬ isWordChar '_' := by decide
  have hguard : words (guardDigit w) = [w] := by
    obtain ⟨c, w, rfl⟩ := List.exists_cons_of_ne_nil hne
    have hplain : words (c :: w) = [c :: w] := by
      rw [words, pieces_of_isWordChar hw]
      rfl
    rw [guardDigit]
    split
    · rw [words_cons_of_not_isWordChar hunderscore, hplain]
    · exact hplain
  rw [finish, if_neg (by simpa using hne), guardReserved]
  split
  · rw [String.toList_append, String.toList_ofList]
    exact (words_concat_of_not_isWordChar hunderscore _).trans hguard
  · rw [String.toList_ofList, hguard]

theorem ne_nil_of_mem_words (h : w ∈ words cs) : w ≠ [] := by
  simpa using (List.mem_filter.1 h).2

/-- The first letter of joined words is a capital already. -/
theorem capitalize_join {ws : List (List Char)} (hws : ∀ w ∈ ws, w ≠ []) :
    capitalize (ws.flatMap capitalize) = ws.flatMap capitalize := by
  cases ws with
  | nil => rfl
  | cons first rest =>
    obtain ⟨c, w, rfl⟩ := List.exists_cons_of_ne_nil (hws first List.mem_cons_self)
    rw [List.flatMap_cons, capitalize, List.cons_append, capitalize,
      Char.toUpper_toUpper_eq_toUpper]

theorem uncapitalize_joinCamel {ws : List (List Char)} (hws : ∀ w ∈ ws, w ≠ []) :
    uncapitalize (joinCamel ws) = joinCamel ws := by
  cases ws with
  | nil => rfl
  | cons first rest =>
    obtain ⟨c, w, rfl⟩ := List.exists_cons_of_ne_nil (hws first List.mem_cons_self)
    rw [joinCamel, uncapitalize, List.cons_append, uncapitalize, Char.toLower_toLower_eq_toLower]

/-- What is finished is one word: the joined words, or the blank in their place. -/
theorem exists_word_finish {f : List Char → List Char} (blank : Char)
    (hblank : isWordChar blank) (hcase : f [blank] = [blank])
    (hcs : ∀ c ∈ cs, isWordChar c) (hf : f cs = cs) :
    ∃ w, w ≠ [] ∧ (∀ c ∈ w, isWordChar c) ∧ f w = w ∧ finish blank cs = finish blank w := by
  cases cs with
  | nil => exact ⟨[blank], List.cons_ne_nil _ _, by simpa using hblank, hcase, rfl⟩
  | cons a cs => exact ⟨a :: cs, List.cons_ne_nil _ _, hcs, hf, rfl⟩

theorem pascal_pascal (s : String) : pascal (pascal s) = pascal s := by
  obtain ⟨w, hne, hw, hword, heq⟩ := exists_word_finish 'X' (by decide) rfl
    (fun c hc => isWordChar_of_mem_flatMap (fun _ hw _ => isWordChar_of_mem_words hw) hc)
    (capitalize_join fun _ hw => ne_nil_of_mem_words hw)
  have hpascal : pascal s = finish 'X' w := heq
  rw [hpascal, pascal, words_finish 'X' hne hw, List.flatMap_singleton, hword]

theorem camel_camel (s : String) : camel (camel s) = camel s := by
  obtain ⟨w, hne, hw, hword, heq⟩ := exists_word_finish 'x' (by decide) rfl
    (fun c hc => isWordChar_of_mem_joinCamel (fun _ hw _ => isWordChar_of_mem_words hw) hc)
    (uncapitalize_joinCamel fun _ hw => ne_nil_of_mem_words hw)
  rw [camel_eq_finish s, heq, camel_eq_finish, words_finish 'x' hne hw, joinCamel,
    List.flatMap_nil, List.append_nil, hword]

end Solidity

end ScaleCalls
