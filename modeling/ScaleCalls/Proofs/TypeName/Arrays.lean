import ScaleCalls.Proofs.TypeName.Containers

/-!
# How the names of arrays are read

Whatever stands in an array name in front of its length, the last delimiter parts the two: a
numeral has neither a bracket nor a delimiter in it. So `[T;N]` and `[T,N]` give back `T` and
`N`, except for one kind of element. The names of addresses, accounts and hashes are looked
for first, in what stands in front of the first angle bracket and behind the last `::`, and
there the square bracket is passed over: `[a::H256<T>;4]` is read as the hash alone.

## Main definitions

- `TypeName.Overtaken` — an array name that is read as that of an address, account or hash

## Main statements

- `TypeName.wrapper?_head_array` — when that happens
- `TypeName.classify_array_iff` — what an array name is read as
-/

namespace ScaleCalls.TypeName

variable {exact inner cs ds text front segment : List Char} {c d separator : Char}
  {category : Category} {len : List Char} {n : Nat}

/-! ## Element and length -/

theorem cutBackward?_append {isDelimiter : Char → Bool} (hds : ∀ d ∈ ds, depthStep d = 0)
    (hplain : ∀ d ∈ ds, isDelimiter d = false) (hc : isDelimiter c = true) (cs : List Char) :
    cutBackward? isDelimiter 0 (ds ++ c :: cs) = some (ds, cs) := by
  induction ds with
  | nil => rw [List.nil_append, cutBackward?, if_pos ⟨rfl, hc⟩]
  | cons d ds ih =>
    have hd : ¬ ((0 : Int) = 0 ∧ isDelimiter d = true) := by
      rw [hplain d List.mem_cons_self]
      decide
    rw [List.cons_append, cutBackward?, if_neg hd, hds d List.mem_cons_self, Int.sub_zero,
      ih (fun e he => hds e (List.mem_cons_of_mem _ he))
        (fun e he => hplain e (List.mem_cons_of_mem _ he))]
    rfl

/-- A numeral has digits and perhaps a sign, so what parts it from the element is the last
delimiter, whatever stands in the element. -/
theorem cutLastTopLevel?_numeral {limit : Nat} (hlen : Text.numeral? limit len = some n)
    (hseparator : separator = ';' ∨ separator = ',') (cs : List Char) :
    cutLastTopLevel? (fun c => c == ';' || c == ',') (cs ++ separator :: len) =
      some (cs, len) := by
  have hreverse : (cs ++ separator :: len).reverse = len.reverse ++ separator :: cs.reverse := by
    simp
  have hchar : ∀ d ∈ len.reverse, d.isDigit ∨ d = '+' := fun d hd =>
    Text.isDigit_or_plus_of_numeral? hlen d (List.mem_reverse.1 hd)
  rw [cutLastTopLevel?, hreverse, cutBackward?_append, Option.map_some, List.reverse_reverse,
    List.reverse_reverse]
  · intro d hd
    rcases hchar d hd with hd | rfl
    · exact depthStep_of_isDigit hd
    · rfl
  · intro d hd
    rcases hchar d hd with hd | rfl
    · simp [Text.ne_of_isDigit (d := ';') hd (by decide),
        Text.ne_of_isDigit (d := ',') hd (by decide)]
    · rfl
  · rcases hseparator with rfl | rfl <;> rfl

theorem bracketed?_self (h : cs ≠ []) : bracketed? ('[' :: (cs ++ [']'])) = some cs := by
  have hlong : 1 < (cs ++ [']']).length := by
    rw [List.length_append, List.length_singleton]
    exact Nat.succ_lt_succ (List.length_pos_iff.2 h)
  show (if (cs ++ [']']).getLast? = some ']' ∧ 1 < (cs ++ [']']).length
    then some (cs ++ [']']).dropLast else none) = some cs
  rw [if_pos ⟨List.getLast?_concat, hlong⟩, List.dropLast_concat]

/-! ## The last segment of a path -/

theorem beforePathSeparator_cases (cs : List Char) : beforePathSeparator cs = cs ∨
    ∃ back, cs = beforePathSeparator cs ++ ':' :: ':' :: back := by
  fun_induction beforePathSeparator cs with
  | case1 => exact .inl rfl
  | case2 => exact .inl rfl
  | case3 c d cs h =>
    obtain ⟨rfl, rfl⟩ := h
    exact .inr ⟨cs, rfl⟩
  | case4 c d cs h ih =>
    obtain hsame | ⟨back, hback⟩ := ih
    · exact .inl (congrArg (c :: ·) hsame)
    · exact .inr ⟨back, congrArg (c :: ·) hback⟩

theorem beforePathSeparator_append (h : ':' ∉ cs) (back : List Char) :
    beforePathSeparator (cs ++ ':' :: ':' :: back) = cs := by
  induction cs with
  | nil => rw [List.nil_append, beforePathSeparator, if_pos ⟨rfl, rfl⟩]
  | cons c cs ih =>
    obtain ⟨d, rest, hrest⟩ : ∃ d rest, cs ++ ':' :: ':' :: back = d :: rest := by
      cases cs with
      | nil => exact ⟨_, _, rfl⟩
      | cons d cs => exact ⟨_, _, rfl⟩
    have hc : ¬ (c = ':' ∧ d = ':') := by
      rintro ⟨rfl, -⟩
      exact h List.mem_cons_self
    have ih := ih fun hmem => h (List.mem_cons_of_mem _ hmem)
    rw [hrest] at ih
    rw [List.cons_append, hrest, beforePathSeparator, if_neg hc, ih]

/-- A path has one segment only, or its last one stands behind a separator. -/
theorem lastSegment_cases (cs : List Char) :
    lastSegment cs = cs ∨ ∃ front, cs = front ++ ':' :: ':' :: lastSegment cs := by
  obtain hsame | ⟨back, hback⟩ := beforePathSeparator_cases cs.reverse
  · left
    rw [lastSegment, hsame, List.reverse_reverse]
  · right
    refine ⟨back.reverse, ?_⟩
    have hreverse := congrArg List.reverse hback
    rw [List.reverse_reverse] at hreverse
    rw [lastSegment]
    simpa using hreverse

theorem lastSegment_append (h : ':' ∉ segment) (front : List Char) :
    lastSegment (front ++ ':' :: ':' :: segment) = segment := by
  have hreverse : (front ++ ':' :: ':' :: segment).reverse =
      segment.reverse ++ ':' :: ':' :: front.reverse := by simp
  rw [lastSegment, hreverse, beforePathSeparator_append (by simpa using h), List.reverse_reverse]

/-! ## Names of addresses, accounts and hashes -/

/-- The names that are looked for first are words of letters and digits. -/
theorem isAlphanum_of_wrapper? (h : wrapper? text = some category) :
    ∀ c ∈ text, c.isAlphanum := by
  have hword : ∀ word : String, String.ofList text = word →
      word.toList.all Char.isAlphanum → ∀ c ∈ text, c.isAlphanum := by
    rintro word rfl hall
    rwa [String.toList_ofList, List.all_eq_true] at hall
  unfold wrapper? at h
  split at h
  case h_10 => cases h
  all_goals
    rename_i heq
    exact hword _ heq (by decide)

theorem mem_fold_iff (hd : d.isAlpha = false) : d ∈ fold cs ↔ d ∈ cs := by
  rw [fold, List.mem_map]
  simp only [Text.toLower_eq_iff hd, exists_eq_right]

/-- In front of the first angle bracket of the element, behind a separator, stands the name of
an address, an account or a hash, in any letter case. -/
def Overtaken (text : List Char) (category : Category) : Prop :=
  ∃ front segment back, text = front ++ ':' :: ':' :: (segment ++ '<' :: back) ∧ '<' ∉ front ∧
    wrapper? (fold segment) = some category

theorem not_overtaken (h : ':' ∉ text) : ¬ Overtaken text category := by
  rintro ⟨front, segment, back, rfl, -⟩
  simp at h

theorem Overtaken.element? (h : Overtaken text category) : category.element? = none := by
  obtain ⟨front, segment, back, -, -, hwrapper⟩ := h
  exact element?_wrapper? hwrapper

/-- A text in square brackets is no such name as a whole. -/
theorem wrapper?_square (cs : List Char) : wrapper? ('[' :: cs) = none := by
  cases hwrapper : wrapper? ('[' :: cs) with
  | none => rfl
  | some category =>
    exact absurd (isAlphanum_of_wrapper? hwrapper '[' List.mem_cons_self) (by decide)

theorem wrapper?_lastSegment_square (h : cs.getLast? = some ']') :
    wrapper? (lastSegment ('[' :: cs)) = none := by
  cases hwrapper : wrapper? (lastSegment ('[' :: cs)) with
  | none => rfl
  | some category =>
    have hall := isAlphanum_of_wrapper? hwrapper
    obtain hsame | ⟨front, hfront⟩ := lastSegment_cases ('[' :: cs)
    · rw [hsame, wrapper?_square] at hwrapper
      cases hwrapper
    · -- the segment ends in the closing bracket, or the text in a colon
      have hlast : ('[' :: cs).getLast? = some ']' := by simp [List.getLast?_cons, h]
      rw [hfront] at hlast
      generalize lastSegment ('[' :: cs) = segment at hall hlast
      cases segment with
      | nil => simp at hlast
      | cons c rest =>
        have hmem : ']' ∈ c :: rest := List.mem_of_getLast? (by simpa using hlast)
        exact absurd (hall ']' hmem) (by decide)

theorem wrapper?_head_square (h : '<' ∉ cs) (hlast : cs.getLast? = some ']') :
    wrapper? (head (fold ('[' :: cs))) = none := by
  have hall : '<' ∉ fold ('[' :: cs) := by
    rw [mem_fold_iff (by decide)]
    simp [h]
  have hfolded : (fold cs).getLast? = some ']' := by
    rw [fold, List.getLast?_map, hlast]
    rfl
  rw [head_of_not_mem hall]
  exact wrapper?_lastSegment_square hfolded

theorem wrapper?_lastSegment_eq_some : wrapper? (lastSegment (fold ('[' :: cs))) = some category ↔
    ∃ front segment, cs = front ++ ':' :: ':' :: segment ∧
      wrapper? (fold segment) = some category := by
  constructor
  · intro hwrapper
    obtain hsame | ⟨front, hfront⟩ := lastSegment_cases (fold ('[' :: cs))
    · rw [hsame, fold, List.map_cons, show '['.toLower = '[' from rfl, wrapper?_square] at hwrapper
      cases hwrapper
    · obtain ⟨before, behind, hcs, rfl, hbehind⟩ := List.map_eq_append_iff.1 hfront
      obtain ⟨c, rest, rfl, hc, hrest⟩ := List.map_eq_cons_iff.1 hbehind
      obtain ⟨d, segment, rfl, hd, hsegment⟩ := List.map_eq_cons_iff.1 hrest
      obtain rfl := (Text.toLower_eq_iff (by decide)).1 hc
      obtain rfl := (Text.toLower_eq_iff (by decide)).1 hd
      cases before with
      | nil => exact absurd (List.cons.inj hcs).1 (by decide)
      | cons b before =>
        refine ⟨before, segment, (List.cons.inj hcs).2, ?_⟩
        rw [fold, hsegment]
        exact hwrapper
  · rintro ⟨front, segment, rfl, hwrapper⟩
    have hcolon : ':' ∉ fold segment := fun hmem =>
      absurd (isAlphanum_of_wrapper? hwrapper ':' hmem) (by decide)
    have hfold : fold ('[' :: (front ++ ':' :: ':' :: segment)) =
        fold ('[' :: front) ++ ':' :: ':' :: fold segment := by
      rw [← List.cons_append, fold, List.map_append]
      rfl
    rw [hfold, lastSegment_append hcolon, hwrapper]

/-- An array name is taken for one of these names exactly if its element is written so. -/
theorem wrapper?_head_array (hangle : '<' ∉ ds) (hlast : ds.getLast? = some ']') :
    wrapper? (head (fold ('[' :: (text ++ ds)))) = some category ↔ Overtaken text category := by
  by_cases hmem : '<' ∈ text
  · obtain ⟨before, back, rfl, hbefore⟩ := List.eq_append_cons_of_mem hmem
    have hfold : fold ('[' :: (before ++ '<' :: back ++ ds)) =
        fold ('[' :: before) ++ '<' :: fold (back ++ ds) := by
      rw [List.append_assoc, ← List.cons_append, fold, List.map_append]
      rfl
    have hopen : '<' ∉ fold ('[' :: before) := by
      rw [mem_fold_iff (by decide), List.mem_cons]
      exact fun h => h.elim (by decide) hbefore
    rw [hfold, head_angle hopen, wrapper?_lastSegment_eq_some]
    constructor
    · rintro ⟨front, segment, rfl, hwrapper⟩
      refine ⟨front, segment, back, by simp, fun h => hbefore ?_, hwrapper⟩
      exact List.mem_append_left _ h
    · rintro ⟨front, segment, back', heq, hfront, hwrapper⟩
      have hsegment : '<' ∉ segment := fun h =>
        absurd (isAlphanum_of_wrapper? hwrapper '<' ((mem_fold_iff (by decide)).2 h)) (by decide)
      have heq : before ++ '<' :: back = (front ++ ':' :: ':' :: segment) ++ '<' :: back' := by
        rw [heq]
        simp
      have hfirst : '<' ∉ front ++ ':' :: ':' :: segment := by simp [hfront, hsegment]
      exact ⟨front, segment, (append_angle_inj hbefore hfirst heq).1, hwrapper⟩
  · have hall : '<' ∉ text ++ ds := by simp [hmem, hangle]
    rw [wrapper?_head_square hall (by rw [List.getLast?_append, hlast, Option.some_or])]
    constructor
    · intro h
      cases h
    · rintro ⟨front, segment, back, rfl, -⟩
      simp at hmem

/-! ## Names of arrays -/

section Arrays

variable (hlen : Text.numeral? Text.limit64 len = some n)
  (hseparator : separator = ';' ∨ separator = ',') (inner : List Char)

include hlen hseparator

theorem wrapper?_head_numeral : wrapper? (head (fold ('[' :: (inner ++ separator :: (len ++ [']'])))))
    = some category ↔ Overtaken inner category := by
  refine wrapper?_head_array ?_ (by rw [← List.cons_append, List.getLast?_concat])
  have hopen : '<' ∉ len := Text.not_mem_of_numeral? hlen (by decide)
  rcases hseparator with rfl | rfl <;> simp [hopen]

theorem classifyExact_of_overtaken (h : Overtaken inner category) :
    classifyExact ('[' :: (inner ++ separator :: (len ++ [']']))) = category := by
  unfold classifyExact
  rw [(wrapper?_head_numeral hlen hseparator inner).2 h]

/-- An array, unless its name is taken for that of an address, an account or a hash. -/
theorem classifyExact_array (h : ∀ category, ¬ Overtaken inner category) :
    classifyExact ('[' :: (inner ++ separator :: (len ++ [']']))) =
      if inner.isEmpty then .unsupported
      else if fold inner = "u8".toList then .fixedBytes n
      else .fixedArray (String.ofList inner) n := by
  have hwrapper : wrapper? (head (fold ('[' :: (inner ++ separator :: (len ++ [']']))))) = none :=
    Option.eq_none_iff_forall_ne_some.2 fun category hcategory =>
      h category ((wrapper?_head_numeral hlen hseparator inner).1 hcategory)
  have hbracketed : bracketed? ('[' :: (inner ++ separator :: (len ++ [']']))) =
      some (inner ++ separator :: len) := by
    have hassoc : inner ++ separator :: (len ++ [']']) = (inner ++ separator :: len) ++ [']'] := by
      simp
    rw [hassoc]
    exact bracketed?_self (by simp)
  unfold classifyExact
  rw [hwrapper, hbracketed]
  dsimp only
  rw [fixedArray, cutLastTopLevel?_numeral hlen hseparator inner]
  dsimp only
  rewrite [hlen]
  rfl

end Arrays

theorem not_isBlank_of_numeral? {limit : Nat} (h : Text.numeral? limit len = some n) :
    ∀ c ∈ len, Text.isBlank c = false := by
  intro c hc
  rcases Text.isDigit_or_plus_of_numeral? h c hc with hdigit | rfl
  · exact Text.not_isBlank_of_isDigit hdigit
  · decide

/-- For a text without blanks, `[T;N]` and `[T,N]` are read as `N` bytes if `T` is `u8` in any
letter case, and otherwise as an array of `N` elements `T` in their spelling. That is so exactly
if `T` is not written, in front of its first angle bracket, as a path that ends in the name of an
address, an account or a hash. In that case the array is lost, and only what this name says is
left. -/
theorem classify_array_iff {text len separator : String} {n : Nat} (htext : text ≠ "")
    (hblank : text.toList.all fun c => !Text.isBlank c)
    (hlen : Text.numeral? Text.limit64 len.toList = some n)
    (hseparator : separator = ";" ∨ separator = ",") :
    let name := "[" ++ text ++ separator ++ len ++ "]"
    (classify name =
        (if fold text.toList = "u8".toList then .fixedBytes n else .fixedArray text n) ↔
      ∀ category, ¬ Overtaken text.toList category) ∧
    ∀ category, Overtaken text.toList category → classify name = category := by
  intro name
  obtain ⟨c, hc, hchar⟩ : ∃ c, separator.toList = [c] ∧ (c = ';' ∨ c = ',') := by
    rcases hseparator with rfl | rfl
    · exact ⟨';', by decide, .inl rfl⟩
    · exact ⟨',', by decide, .inr rfl⟩
  have hlist : name.toList = '[' :: (text.toList ++ c :: (len.toList ++ [']'])) := by
    simp [name, String.toList_append, hc]
  have hstrip : Text.stripBlanks name = name := by
    refine Text.stripBlanks_eq_self fun d hd => ?_
    rw [hlist, List.mem_cons, List.mem_append, List.mem_cons, List.mem_append,
      List.mem_singleton] at hd
    obtain rfl | hd | rfl | hd | rfl := hd
    · decide
    · simpa using List.all_eq_true.1 hblank d hd
    · rcases hchar with rfl | rfl <;> decide
    · exact not_isBlank_of_numeral? hlen d hd
    · decide
  have hover : ∀ category, Overtaken text.toList category → classify name = category := by
    intro category h
    rw [classify, hstrip, hlist]
    exact classifyExact_of_overtaken hlen hchar text.toList h
  refine ⟨⟨fun harray category h => ?_, fun h => ?_⟩, hover⟩
  · -- such a name has no element, and `u8` is not written as a path
    rw [hover category h] at harray
    have helement := h.element?
    rw [harray] at helement
    split at helement
    · rename_i hbytes
      refine not_overtaken (fun hcolon => ?_) h
      rw [← mem_fold_iff (by decide), hbytes] at hcolon
      exact absurd hcolon (by decide)
    · cases helement
  · have hne : text.toList.isEmpty = false := by
      rw [List.isEmpty_eq_false_iff, ne_eq, String.toList_eq_nil_iff]
      exact htext
    rw [classify, hstrip, hlist, classifyExact_array hlen hchar text.toList h, hne,
      if_neg (by decide), String.ofList_toList]

/-- Two addresses are read as one. -/
theorem classify_array_overtaken :
    classify "[sp_runtime::MultiAddress<AccountId32,()>;2]" = .primitive .multiAddressId32 ∧
    classify "[sp_runtime::MultiAddress<AccountId32,()>;2]" ≠
      .fixedArray "sp_runtime::MultiAddress<AccountId32,()>" 2 ∧
    classify "[MultiAddress<AccountId32,()>;2]" = .fixedArray "MultiAddress<AccountId32,()>" 2 := by
  have h := @classify_array_iff "sp_runtime::MultiAddress<AccountId32,()>" "2" ";" 2 (by decide)
    (by decide +kernel) (by decide) (.inl rfl)
  have hplain := @classify_array_iff "MultiAddress<AccountId32,()>" "2" ";" 2 (by decide)
    (by decide +kernel) (by decide) (.inl rfl)
  have hover : Overtaken "sp_runtime::MultiAddress<AccountId32,()>".toList
      (.primitive .multiAddressId32) :=
    ⟨"sp_runtime".toList, "MultiAddress".toList, "AccountId32,()>".toList, by decide, by decide,
      by decide⟩
  refine ⟨h.2 _ hover, fun harray => ?_, ?_⟩
  · exact h.1.1 harray _ hover
  · exact hplain.1.2 fun category => not_overtaken (by decide)

end ScaleCalls.TypeName
