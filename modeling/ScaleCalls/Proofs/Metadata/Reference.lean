import ScaleCalls.Proofs.Metadata.TypeTable
import ScaleCalls.Proofs.Text.Numeral

/-!
# References by number

A type id that is written as a reference is read back as the same id, so such a
reference leads to the last entry with this id.

## Main statements

- `lookupId?_idReference` — an id is read back from its reference
- `eq_of_lookupId?_append` — a text with a number behind it is read as this id or as none
- `TypeTable.canonical_idReference` — what a reference by number leads to
-/

namespace ScaleCalls

theorem toList_idReference (id : UInt32) :
    (idReference id).toList = "Lookup".toList ++ Nat.toDigits 10 id.toNat := by
  rw [← Nat.toList_repr]
  exact String.toList_append

theorem stripBlanks_idReference (id : UInt32) :
    Text.stripBlanks (idReference id) = idReference id := by
  refine Text.stripBlanks_eq_self fun c hc => ?_
  rw [toList_idReference, List.mem_append] at hc
  rcases hc with hword | hdigit
  · have hall : "Lookup".toList.all fun c => !Text.isBlank c := by decide
    simpa using List.all_eq_true.1 hall c hword
  · exact Text.not_isBlank_of_isDigit (Text.isDigit_of_mem_toDigits hdigit)

theorem lookupId?_idReference (id : UInt32) : lookupId? (idReference id) = some id := by
  have hbegins : "Lookup".toList.isPrefixOf ("Lookup".toList ++ Nat.toDigits 10 id.toNat) := by
    rw [List.isPrefixOf_iff_prefix]
    exact List.prefix_append _ _
  have hdrop : ("Lookup".toList ++ Nat.toDigits 10 id.toNat).drop 6 =
      Nat.toDigits 10 id.toNat := rfl
  rw [lookupId?, toList_idReference]
  simp only [hbegins, if_true, hdrop]
  rw [Text.digits?_toDigits (show id.toNat < Text.limit32 from id.toNat_lt)]
  simp

theorem lookupId?_with_word {text : String} {digits : List Char}
    (h : text.toList = "Lookup".toList ++ digits) :
    lookupId? text = (Text.digits? Text.limit32 digits).map UInt32.ofNat := by
  have hbegins : "Lookup".toList.isPrefixOf ("Lookup".toList ++ digits) := by
    rw [List.isPrefixOf_iff_prefix]
    exact List.prefix_append _ _
  rw [lookupId?, h]
  simp only [hbegins, if_true]
  rfl

theorem lookupId?_without_word {text : String} (h : ¬ "Lookup".toList <+: text.toList) :
    lookupId? text = (Text.digits? Text.limit32 text.toList).map UInt32.ofNat := by
  rw [← List.isPrefixOf_iff_prefix] at h
  rw [lookupId?]
  simp only [if_neg h]

/-- A reference has letters and digits only. -/
theorem isAlphanum_of_lookupId? {text : String} {id : UInt32} (h : lookupId? text = some id) :
    ∀ c ∈ text.toList, c.isAlphanum := by
  have hdigits : ∀ digits : List Char,
      (Text.digits? Text.limit32 digits).map UInt32.ofNat = some id →
        ∀ c ∈ digits, c.isAlphanum := by
    intro digits hid c hc
    obtain ⟨n, hn, -⟩ := Option.map_eq_some_iff.1 hid
    rw [Char.isAlphanum, Text.all_isDigit_of_digits? hn c hc, Bool.or_true]
  by_cases hbegins : "Lookup".toList <+: text.toList
  · obtain ⟨digits, htext⟩ := hbegins
    rw [lookupId?_with_word htext.symm] at h
    rw [← htext]
    intro c hc
    rcases List.mem_append.1 hc with hc | hc
    · exact List.all_eq_true.1 (show "Lookup".toList.all Char.isAlphanum by decide) c hc
    · exact hdigits digits h c hc
  · rw [lookupId?_without_word hbegins] at h
    exact hdigits text.toList h

/-- Digits do not complete the word of a reference. -/
theorem not_prefix_append_toDigits {cs : List Char} (h : ¬ "Lookup".toList <+: cs) (n : Nat) :
    ¬ "Lookup".toList <+: cs ++ Nat.toDigits 10 n := by
  intro hall
  obtain hword | ⟨rest, hrest⟩ := List.prefix_or_prefix_of_prefix hall (List.prefix_append cs _)
  · exact h hword
  · rw [← hrest, List.prefix_append_right_inj] at hall
    have hlast : "Lookup".toList.getLast? = some 'p' := by decide
    have hne : rest ≠ [] := by
      rintro rfl
      rw [List.append_nil] at hrest
      exact h (hrest ▸ List.prefix_rfl)
    rw [← hrest, List.getLast?_append_of_ne_nil _ hne] at hlast
    have hdigit := Text.isDigit_of_mem_toDigits (hall.subset (List.mem_of_getLast? hlast))
    exact absurd hdigit (by decide)

/-- A number behind a text that is no reference makes a reference to nothing else. -/
theorem eq_of_lookupId?_append {text : String} {number id : UInt32} (hne : text ≠ "")
    (htext : lookupId? text = none)
    (h : lookupId? (text ++ toString number.toNat) = some id) : id = number := by
  have hnumber : (text ++ toString number.toNat).toList =
      text.toList ++ Nat.toDigits 10 number.toNat := by
    rw [String.toList_append, Nat.toString_eq_repr, Nat.toList_repr]
  by_cases hbegins : "Lookup".toList <+: text.toList
  · obtain ⟨digits, hdigits⟩ := hbegins
    rw [lookupId?_with_word hdigits.symm, Option.map_eq_none_iff] at htext
    rw [← hdigits, List.append_assoc] at hnumber
    rw [lookupId?_with_word hnumber] at h
    by_cases hnil : digits = []
    · rw [hnil, List.nil_append,
        Text.digits?_toDigits (show number.toNat < Text.limit32 from number.toNat_lt)] at h
      simpa using h.symm
    · obtain ⟨n, hn, -⟩ := Option.map_eq_some_iff.1 h
      exact absurd htext (Text.digits?_ne_none_of_append hnil hn)
  · have hnil : text.toList ≠ [] := fun hnil => hne (String.toList_eq_nil_iff.1 hnil)
    rw [lookupId?_without_word hbegins, Option.map_eq_none_iff] at htext
    rw [lookupId?_without_word (hnumber ▸ not_prefix_append_toDigits hbegins _), hnumber] at h
    obtain ⟨n, hn, -⟩ := Option.map_eq_some_iff.1 h
    exact absurd htext (Text.digits?_ne_none_of_append hnil hn)

theorem TypeTable.canonical_idReference {table : TypeTable} {id : UInt32} {entry : TypeEntry}
    (h : table.byId[id]? = some entry) :
    table.canonical (idReference id) = .ok entry.canonicalName := by
  unfold canonical
  simp only [stripBlanks_idReference, lookupId?_idReference, h]

/-- What is no reference by number is a name. -/
theorem TypeTable.canonical_of_lookupId?_none {table : TypeTable} {reference : String}
    (h : lookupId? (Text.stripBlanks reference) = none) :
    table.canonical reference = .ok (Text.stripBlanks reference) := by
  unfold canonical
  simp only [h]

theorem TypeTable.handle_of_canonical {table : TypeTable} {reference name : String}
    (h : table.canonical reference = .ok name) : table.handle reference = name := by
  unfold handle
  rw [h]

end ScaleCalls
