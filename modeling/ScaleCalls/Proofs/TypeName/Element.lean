import ScaleCalls.TypeName.Classify

/-!
# Elements of type names

The element of a container is a piece of the container's name, and a shorter text.
So the names that stand inside one another in a type name come to an end.

## Main definitions

- `TypeName.nested` — a name and the names inside it, from the outside in
-/

namespace ScaleCalls.TypeName

variable {exact inner elem : List Char} {name text : String}

theorem exists_of_cutBackward? {isDelimiter : Char → Bool} {depth : Int} {cs a b : List Char}
    (h : cutBackward? isDelimiter depth cs = some (a, b)) : ∃ c, cs = a ++ c :: b := by
  induction cs generalizing depth a b with
  | nil => simp [cutBackward?] at h
  | cons c cs ih =>
    rw [cutBackward?] at h
    split at h
    · cases h
      exact ⟨c, rfl⟩
    · obtain ⟨⟨x, y⟩, hcut, heq⟩ := Option.map_eq_some_iff.1 h
      cases heq
      obtain ⟨d, rfl⟩ := ih hcut
      exact ⟨d, rfl⟩

theorem exists_of_cutLastTopLevel? {isDelimiter : Char → Bool} {cs a b : List Char}
    (h : cutLastTopLevel? isDelimiter cs = some (a, b)) : ∃ c, cs = a ++ c :: b := by
  obtain ⟨⟨x, y⟩, hcut, heq⟩ := Option.map_eq_some_iff.1 h
  cases heq
  obtain ⟨c, hc⟩ := exists_of_cutBackward? hcut
  refine ⟨c, ?_⟩
  rw [← List.reverse_reverse cs, hc]
  simp

theorem isPrefix_of_splitTopLevel {delimiter : Char} {depth : Int} {cs piece : List Char}
    {pieces : List (List Char)} (h : splitTopLevel delimiter depth cs = piece :: pieces) :
    piece <+: cs := by
  induction cs generalizing depth piece pieces with
  | nil =>
    cases h
    exact List.prefix_rfl
  | cons c cs ih =>
    rw [splitTopLevel] at h
    split at h
    · cases h
      exact List.nil_prefix
    · cases hs : splitTopLevel delimiter (depth + depthStep c) cs with
      | nil => simp [hs] at h
      | cons first rest =>
        rw [hs] at h
        cases h
        exact List.cons_prefix_cons.2 ⟨rfl, ih hs⟩

theorem exists_of_generic? {word : String} (h : generic? word exact = some inner) :
    ∃ before, exact = before ++ '<' :: (inner ++ ['>']) := by
  unfold generic? at h
  split at h
  · split at h
    · rename_i cs hdrop
      split at h
      · rename_i hlast
        cases h
        refine ⟨exact.take word.length, ?_⟩
        obtain ⟨front, hfront⟩ := List.getLast?_eq_some_iff.1 hlast
        subst hfront
        rw [List.dropLast_concat, ← hdrop, List.take_append_drop]
      · cases h
    · cases h
  · cases h

theorem eq_of_bracketed? (h : bracketed? exact = some inner) :
    exact = '[' :: (inner ++ [']']) := by
  unfold bracketed? at h
  split at h
  · split at h
    · rename_i cs hlast
      cases h
      obtain ⟨front, hfront⟩ := List.getLast?_eq_some_iff.1 hlast.1
      subst hfront
      rw [List.dropLast_concat]
    · cases h
  · cases h

theorem bracketed?_of_head_ne {c : Char} {cs : List Char} (h : c ≠ '[') :
    bracketed? (c :: cs) = none :=
  bracketed?.eq_2 _ fun _ heq => h (List.cons.inj heq).1

theorem element?_wrapper? {head : List Char} {category : Category}
    (h : wrapper? head = some category) : category.element? = none := by
  unfold wrapper? at h
  split at h <;> cases h <;> rfl

theorem isPrefix_of_element?_fixedArray (h : (fixedArray inner).element? = some text) :
    text.toList <+: inner := by
  unfold fixedArray at h
  split at h
  · cases h
  · rename_i elem len hcut
    obtain ⟨c, rfl⟩ := exists_of_cutLastTopLevel? hcut
    split at h
    · cases h
    · split at h
      · cases h
      · split at h
        · cases h
        · cases h
          rw [String.toList_ofList]
          exact List.prefix_append _ _

theorem isPrefix_of_element?_boundedVector (h : (boundedVector inner).element? = some text) :
    text.toList <+: inner := by
  unfold boundedVector at h
  split at h
  · cases h
  · rename_i elem rest hsplit
    split at h
    · cases h
    · split at h
      · cases h
      · cases h
        rw [String.toList_ofList]
        exact isPrefix_of_splitTopLevel hsplit

theorem isPrefix_of_element?_around {container : String → Category}
    (hc : ∀ elem, (container elem).element? = some elem)
    (h : (around container inner).element? = some text) : text.toList <+: inner := by
  unfold around at h
  split at h
  · cases h
  · rw [hc] at h
    cases h
    simp only [String.toList_ofList, List.prefix_rfl]

theorem exists_of_element?_genericCategory
    (h : (genericCategory exact).element? = some text) :
    ∃ before inner, exact = before ++ '<' :: (inner ++ ['>']) ∧ text.toList <+: inner := by
  unfold genericCategory at h
  split at h
  · rename_i inner hgeneric
    rw [Option.or_eq_some_iff] at hgeneric
    have : ∃ before, exact = before ++ '<' :: (inner ++ ['>']) := by
      obtain hb | ⟨-, hw⟩ := hgeneric
      · exact exists_of_generic? hb
      · exact exists_of_generic? hw
    obtain ⟨before, hexact⟩ := this
    exact ⟨before, inner, hexact, isPrefix_of_element?_boundedVector h⟩
  · split at h
    · rename_i inner hgeneric
      obtain ⟨before, hexact⟩ := exists_of_generic? hgeneric
      exact ⟨before, inner, hexact, isPrefix_of_element?_around (fun _ => rfl) h⟩
    · split at h
      · rename_i inner hgeneric
        obtain ⟨before, hexact⟩ := exists_of_generic? hgeneric
        exact ⟨before, inner, hexact, isPrefix_of_element?_around (fun _ => rfl) h⟩
      · cases h

/-- An element is a piece of a name, and shorter. -/
theorem isInfix_of_element?_classifyExact
    (h : (classifyExact exact).element? = some text) :
    text.toList <:+: exact ∧ text.toList.length < exact.length := by
  -- whatever container it is, something stands in front of the element
  have within : ∀ before after : List Char, ∀ inner, exact = before ++ inner ++ after →
      0 < before.length → text.toList <+: inner →
      text.toList <:+: exact ∧ text.toList.length < exact.length := by
    rintro before after inner rfl hpos hbegins
    refine ⟨List.IsInfix.trans (List.IsPrefix.isInfix hbegins) (List.infix_append _ _ _), ?_⟩
    have := hbegins.length_le
    simp only [List.length_append]
    omega
  unfold classifyExact at h
  split at h
  · rename_i hwrapper
    rw [element?_wrapper? hwrapper] at h
    cases h
  · split at h
    · rename_i inner hbracketed
      have hexact := eq_of_bracketed? hbracketed
      exact within ['['] [']'] inner (by simp [hexact]) (by simp)
        (isPrefix_of_element?_fixedArray h)
    · split at h
      · rename_i inner hcompact
        cases hw : compactWidth? (fold inner) <;> simp [hw, Category.element?] at h
      · split at h
        · cases h
        · obtain ⟨before, inner, hexact, hbegins⟩ := exists_of_element?_genericCategory h
          exact within (before ++ ['<']) ['>'] inner (by simp [hexact]) (by simp) hbegins

theorem length_lt_of_element? (h : (classify name).element? = some text) :
    text.length < name.length := by
  have hlt := (isInfix_of_element?_classifyExact h).2
  rw [Text.toList_stripBlanks] at hlt
  have hle := List.length_filter_le (fun c => !Text.isBlank c) name.toList
  simp only [← String.length_toList]
  omega

theorem stripBlanks_of_element? (h : (classify name).element? = some text) :
    Text.stripBlanks text = text := by
  have hsub := (isInfix_of_element?_classifyExact h).1.subset
  refine Text.stripBlanks_eq_self fun c hc => ?_
  have hmem := hsub hc
  rw [Text.toList_stripBlanks] at hmem
  simpa using (List.mem_filter.1 hmem).2

/-! ## Elements are not empty -/

theorem ofList_ne_empty (h : ¬ elem.isEmpty) : String.ofList elem ≠ "" := by
  intro hempty
  have hnil := congrArg String.toList hempty
  rw [String.toList_ofList, String.toList_empty] at hnil
  exact h (List.isEmpty_iff.2 hnil)

theorem ne_empty_of_element?_fixedArray (h : (fixedArray inner).element? = some text) :
    text ≠ "" := by
  unfold fixedArray at h
  split at h
  · cases h
  · split at h
    · cases h
    · split at h
      · cases h
      · rename_i hne
        split at h
        · cases h
        · cases h
          exact ofList_ne_empty hne

theorem ne_empty_of_element?_boundedVector (h : (boundedVector inner).element? = some text) :
    text ≠ "" := by
  unfold boundedVector at h
  split at h
  · cases h
  · split at h
    · cases h
    · rename_i hne
      split at h
      · cases h
      · cases h
        exact ofList_ne_empty hne

theorem ne_empty_of_element?_around {container : String → Category}
    (hc : ∀ elem, (container elem).element? = some elem)
    (h : (around container inner).element? = some text) : text ≠ "" := by
  unfold around at h
  split at h
  · cases h
  · rename_i hne
    rw [hc] at h
    cases h
    exact ofList_ne_empty hne

theorem ne_empty_of_element?_classifyExact (h : (classifyExact exact).element? = some text) :
    text ≠ "" := by
  unfold classifyExact at h
  split at h
  · rename_i hwrapper
    rw [element?_wrapper? hwrapper] at h
    cases h
  · split at h
    · exact ne_empty_of_element?_fixedArray h
    · split at h
      · rename_i inner _
        cases hw : compactWidth? (fold inner) <;> simp [hw, Category.element?] at h
      · split at h
        · cases h
        · unfold genericCategory at h
          split at h
          · exact ne_empty_of_element?_boundedVector h
          · split at h
            · exact ne_empty_of_element?_around (fun _ => rfl) h
            · split at h
              · exact ne_empty_of_element?_around (fun _ => rfl) h
              · cases h

/-! ## Names inside names -/

/-- A name, the name of its element, the element's element and so on; at most `depth`
steps inwards. -/
def nestedWithin : (depth : Nat) → String → List String
  | 0, name => [name]
  | depth + 1, name => name :: ((classify name).element?.map (nestedWithin depth)).getD []

/-- A name and the names inside it. Every step inwards takes off a character, so
there are at most as many steps as characters. -/
def nested (name : String) : List String := nestedWithin name.length name

theorem mem_nestedWithin_self (depth : Nat) (name : String) : name ∈ nestedWithin depth name := by
  cases depth <;> simp [nestedWithin]

theorem mem_nestedWithin_of_element? {depth : Nat} {outer : String}
    (hdepth : outer.length ≤ depth) (hname : name ∈ nestedWithin depth outer)
    (h : (classify name).element? = some text) : text ∈ nestedWithin depth outer := by
  induction depth generalizing outer with
  | zero =>
    rw [nestedWithin, List.mem_singleton] at hname
    subst hname
    have := length_lt_of_element? h
    omega
  | succ depth ih =>
    rw [nestedWithin] at hname ⊢
    rcases List.mem_cons.1 hname with rfl | hmem
    · rw [h]
      exact List.mem_cons_of_mem _ (mem_nestedWithin_self depth text)
    · cases helem : (classify outer).element? with
      | none => simp [helem] at hmem
      | some elem =>
        rw [helem] at hmem
        have := length_lt_of_element? helem
        exact List.mem_cons_of_mem _ (ih (by omega) hmem)

theorem length_nestedWithin_le (depth : Nat) (name : String) :
    (nestedWithin depth name).length ≤ depth + 1 := by
  induction depth generalizing name with
  | zero => exact Nat.le_refl _
  | succ depth ih =>
    rw [nestedWithin]
    cases (classify name).element? with
    | none => simp
    | some elem => simpa using ih elem

theorem mem_nested_self (name : String) : name ∈ nested name :=
  mem_nestedWithin_self _ name

/-- The names inside a name are closed under taking elements. -/
theorem mem_nested_of_element? {outer : String} (hname : name ∈ nested outer)
    (h : (classify name).element? = some text) : text ∈ nested outer :=
  mem_nestedWithin_of_element? (Nat.le_refl _) hname h

theorem length_nested_le (name : String) : (nested name).length ≤ name.length + 1 :=
  length_nestedWithin_le _ name

end ScaleCalls.TypeName
