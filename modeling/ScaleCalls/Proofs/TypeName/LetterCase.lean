import ScaleCalls.Proofs.Characters
import ScaleCalls.Proofs.TypeName.Element

/-!
# Type names in lower case

Some rules look at a name in lower case, others at the name as it is spelled, and all of them
cut both at the same places. For every rule, what it makes of the name in lower case is what
it makes of the name itself, with the element in lower case. So names that differ in blanks
and letter case only are read alike.

## Main definitions

- `Category.folded` — a category with its element in lower case

## Main statements

- `TypeName.classifyExact_fold` — every rule goes through lower case
- `TypeName.classify_ignores_case` — names that are equal up to blanks and case are read alike
-/

namespace ScaleCalls

/-- A category with another name in the place of its element. -/
def Category.mapElement (f : String → String) : Category → Category
  | fixedArray elem len => fixedArray (f elem) len
  | vector elem => vector (f elem)
  | boundedVector elem bound => boundedVector (f elem) bound
  | option elem => option (f elem)
  | primitive kind => primitive kind
  | fixedBytes len => fixedBytes len
  | compact width => compact width
  | unsupported => unsupported

/-- A category with its element in lower case. Kinds, lengths, widths and bounds are kept. -/
def Category.folded (category : Category) : Category :=
  category.mapElement fun elem => String.ofList (TypeName.fold elem.toList)

theorem Category.folded_of_element? {category : Category} (h : category.element? = none) :
    category.folded = category := by
  cases category with
  | fixedArray | vector | boundedVector | option => cases h
  | _ => rfl

namespace TypeName

variable {cs : List Char} {c d : Char}

theorem fold_fold (cs : List Char) : fold (fold cs) = fold cs := by
  rw [fold, fold, List.map_map]
  exact List.map_congr_left fun c _ => Char.toLower_toLower_eq_toLower c

@[simp] theorem fold_cons (c : Char) (cs : List Char) : fold (c :: cs) = c.toLower :: fold cs := rfl

@[simp] theorem isEmpty_fold (cs : List Char) : (fold cs).isEmpty = cs.isEmpty := by
  cases cs <;> rfl

/-- A character that is no letter ends a text in lower case if it ends the text. -/
theorem getLast?_fold_eq_some_iff (hd : d.isAlpha = false) :
    (fold cs).getLast? = some d ↔ cs.getLast? = some d := by
  rw [fold, List.getLast?_map, Option.map_eq_some_iff]
  simp only [Text.toLower_eq_iff hd, exists_eq_right]

theorem depthStep_toLower (c : Char) : depthStep c.toLower = depthStep c := by
  unfold depthStep
  simp only [Text.toLower_eq_iff (show ('<' : Char).isAlpha = false from rfl),
    Text.toLower_eq_iff (show ('(' : Char).isAlpha = false from rfl),
    Text.toLower_eq_iff (show ('[' : Char).isAlpha = false from rfl),
    Text.toLower_eq_iff (show ('>' : Char).isAlpha = false from rfl),
    Text.toLower_eq_iff (show (')' : Char).isAlpha = false from rfl),
    Text.toLower_eq_iff (show (']' : Char).isAlpha = false from rfl)]

/-! ## Cutting -/

theorem cutBackward?_fold {isDelimiter : Char → Bool}
    (hdelimiter : ∀ c, isDelimiter c.toLower = isDelimiter c) (depth : Int) (cs : List Char) :
    cutBackward? isDelimiter depth (fold cs) =
      (cutBackward? isDelimiter depth cs).map (Prod.map fold fold) := by
  induction cs generalizing depth with
  | nil => rfl
  | cons c cs ih =>
    rw [fold_cons, cutBackward?, cutBackward?, hdelimiter, depthStep_toLower, ih]
    split
    · rfl
    · rw [Option.map_map, Option.map_map]
      rfl

theorem cutLastTopLevel?_fold {isDelimiter : Char → Bool}
    (hdelimiter : ∀ c, isDelimiter c.toLower = isDelimiter c) (cs : List Char) :
    cutLastTopLevel? isDelimiter (fold cs) =
      (cutLastTopLevel? isDelimiter cs).map (Prod.map fold fold) := by
  unfold cutLastTopLevel?
  rw [show (fold cs).reverse = fold cs.reverse from List.map_reverse.symm,
    cutBackward?_fold hdelimiter, Option.map_map, Option.map_map]
  congr 1
  funext p
  simp [fold, Prod.map]

theorem splitTopLevel_fold (depth : Int) (cs : List Char) :
    splitTopLevel ',' depth (fold cs) = (splitTopLevel ',' depth cs).map fold := by
  induction cs generalizing depth with
  | nil => rfl
  | cons c cs ih =>
    rw [fold_cons, splitTopLevel, splitTopLevel, depthStep_toLower, ih, ih]
    simp only [Text.toLower_eq_iff (show (',' : Char).isAlpha = false from rfl)]
    split
    · rfl
    · cases splitTopLevel ',' (depth + depthStep c) cs <;> rfl

/-- The text without its last character, where some test is passed. -/
theorem dropLast_fold {p q : Prop} [Decidable p] [Decidable q] (h : p ↔ q) (cs : List Char) :
    (if p then some (fold cs).dropLast else none) =
      (if q then some cs.dropLast else none).map fold := by
  by_cases hq : q
  · rw [if_pos (h.2 hq), if_pos hq, Option.map_some, fold, fold, List.map_dropLast]
  · rw [if_neg (mt h.1 hq), if_neg hq, Option.map_none]

theorem bracketed?_fold (cs : List Char) : bracketed? (fold cs) = (bracketed? cs).map fold := by
  cases cs with
  | nil => rfl
  | cons c cs =>
    rw [fold_cons]
    by_cases hc : c = '['
    · subst hc
      refine dropLast_fold (and_congr (getLast?_fold_eq_some_iff rfl) ?_) cs
      rw [fold, List.length_map]
    · rw [bracketed?_of_head_ne hc, bracketed?_of_head_ne (mt (Text.toLower_eq_iff rfl).1 hc)]
      rfl

/-- What stands in angle brackets, up to the end. -/
def angled? : List Char → Option (List Char)
  | '<' :: cs => if cs.getLast? = some '>' then some cs.dropLast else none
  | _ => none

theorem angled?_of_head_ne (h : c ≠ '<') (cs : List Char) : angled? (c :: cs) = none :=
  angled?.eq_2 _ fun _ heq => h (List.cons.inj heq).1

theorem angled?_fold (cs : List Char) : angled? (fold cs) = (angled? cs).map fold := by
  cases cs with
  | nil => rfl
  | cons c cs =>
    rw [fold_cons]
    by_cases hc : c = '<'
    · subst hc
      exact dropLast_fold (getLast?_fold_eq_some_iff rfl) cs
    · rw [angled?_of_head_ne hc, angled?_of_head_ne (mt (Text.toLower_eq_iff rfl).1 hc)]
      rfl

theorem generic?_eq (word : String) (cs : List Char) : generic? word cs =
    if fold (cs.take word.length) = word.toList then angled? (cs.drop word.length) else none := rfl

theorem generic?_fold (word : String) (cs : List Char) :
    generic? word (fold cs) = (generic? word cs).map fold := by
  have htake : fold ((fold cs).take word.length) = fold (cs.take word.length) := by
    rw [← fold_fold (cs.take word.length)]
    exact congrArg fold List.map_take.symm
  have hdrop : (fold cs).drop word.length = fold (cs.drop word.length) := List.map_drop.symm
  rw [generic?_eq, generic?_eq, htake, hdrop, angled?_fold]
  split <;> rfl

/-! ## Numerals -/

theorem isDigit_toLower (c : Char) : c.toLower.isDigit = c.isDigit := by
  obtain hsame | ⟨hletter, hlower⟩ := Text.toLower_cases c
  · rw [hsame]
  · rw [Bool.eq_false_of_not_eq_true (Text.not_isDigit_of_isAlpha hletter),
      Bool.eq_false_of_not_eq_true (Text.not_isDigit_of_isAlpha hlower)]

theorem fold_of_all_isDigit (h : cs.all Char.isDigit) : fold cs = cs := by
  have hsame : ∀ c ∈ cs, c.toLower = c := by
    intro c hc
    obtain hsame | ⟨hletter, -⟩ := Text.toLower_cases c
    · exact hsame
    · exact absurd (List.all_eq_true.1 h c hc) (Text.not_isDigit_of_isAlpha hletter)
  rw [fold, List.map_congr_left hsame, List.map_id']

theorem digits?_fold (limit : Nat) (cs : List Char) :
    Text.digits? limit (fold cs) = Text.digits? limit cs := by
  have hall : (fold cs).all Char.isDigit = cs.all Char.isDigit := by
    rw [fold, List.all_map]
    exact congrArg cs.all (funext isDigit_toLower)
  unfold Text.digits?
  rw [isEmpty_fold, hall]
  split
  · rfl
  · rename_i hdigits
    rw [Bool.or_eq_true, not_or, Bool.not_eq_true', Bool.not_eq_false] at hdigits
    rw [fold_of_all_isDigit hdigits.2]

theorem numeral?_of_head_ne (h : c ≠ '+') (limit : Nat) (cs : List Char) :
    Text.numeral? limit (c :: cs) = Text.digits? limit (c :: cs) :=
  Text.numeral?.eq_2 limit _ fun _ heq => h (List.cons.inj heq).1

theorem numeral?_fold (limit : Nat) (cs : List Char) :
    Text.numeral? limit (fold cs) = Text.numeral? limit cs := by
  cases cs with
  | nil => rfl
  | cons c cs =>
    by_cases hc : c = '+'
    · subst hc
      exact digits?_fold limit cs
    · rw [fold_cons, numeral?_of_head_ne (mt (Text.toLower_eq_iff rfl).1 hc),
        numeral?_of_head_ne hc, ← fold_cons, digits?_fold]

theorem bound?_eq (cs : List Char) : bound? cs =
    (Text.numeral? Text.limit64 cs).or
      ((angled? (cs.dropWhile (· ≠ '<'))).bind (Text.numeral? Text.limit64)) := by
  unfold bound?
  cases Text.numeral? Text.limit64 cs with
  | some n => rfl
  | none =>
    rw [Option.none_or]
    dsimp only
    split
    · rename_i hdrop
      rw [hdrop, angled?]
      split <;> rfl
    · rename_i hangle
      rw [angled?.eq_2 _ hangle, Option.bind_none]

theorem bound?_fold (cs : List Char) : bound? (fold cs) = bound? cs := by
  have hdrop : (fold cs).dropWhile (· ≠ '<') = fold (cs.dropWhile (· ≠ '<')) := by
    rw [fold, List.dropWhile_map]
    congr 2
    funext c
    rw [Function.comp_apply, decide_eq_decide]
    exact not_congr (Text.toLower_eq_iff rfl)
  rw [bound?_eq, bound?_eq, numeral?_fold, hdrop, angled?_fold, Option.bind_map]
  congr 2
  exact funext (numeral?_fold _)

/-! ## Rules -/

theorem folded_of_wrapper? {head : List Char} {category : Category}
    (h : wrapper? head = some category) : category.folded = category :=
  Category.folded_of_element? (element?_wrapper? h)

theorem fixedArray_fold (cs : List Char) : fixedArray (fold cs) = (fixedArray cs).folded := by
  have hdelimiter : ∀ c : Char,
      (c.toLower == ';' || c.toLower == ',') = (c == ';' || c == ',') := by
    intro c
    rw [Bool.eq_iff_iff, Bool.or_eq_true, Bool.or_eq_true, beq_iff_eq, beq_iff_eq, beq_iff_eq,
      beq_iff_eq, Text.toLower_eq_iff rfl, Text.toLower_eq_iff rfl]
  unfold fixedArray
  rw [cutLastTopLevel?_fold hdelimiter]
  cases cutLastTopLevel? (fun c => c == ';' || c == ',') cs with
  | none => rfl
  | some cut =>
    obtain ⟨elem, len⟩ := cut
    rw [Option.map_some, Prod.map_apply]
    dsimp only
    rw [numeral?_fold, isEmpty_fold, fold_fold]
    cases Text.numeral? Text.limit64 len with
    | none => rfl
    | some n =>
      dsimp only
      split
      · rfl
      · split
        · rfl
        · rw [Category.folded, Category.mapElement, String.toList_ofList]

theorem boundedVector_fold (cs : List Char) :
    boundedVector (fold cs) = (boundedVector cs).folded := by
  unfold boundedVector
  rw [splitTopLevel_fold]
  cases splitTopLevel ',' 0 cs with
  | nil => rfl
  | cons elem rest =>
    have hbound : (rest.map fold).head?.bind bound? = rest.head?.bind bound? := by
      rw [List.head?_map, Option.bind_map]
      exact congrArg rest.head?.bind (funext bound?_fold)
    rw [List.map_cons]
    dsimp only
    rw [isEmpty_fold, fold_fold, hbound]
    split
    · rfl
    · split
      · rfl
      · rw [Category.folded, Category.mapElement, String.toList_ofList]

theorem around_fold {container : String → Category}
    (hc : ∀ elem, (container elem).folded = container (String.ofList (fold elem.toList)))
    (cs : List Char) : around container (fold cs) = (around container cs).folded := by
  unfold around
  rw [isEmpty_fold]
  split
  · rfl
  · rw [hc, String.toList_ofList]

theorem genericCategory_fold (cs : List Char) :
    genericCategory (fold cs) = (genericCategory cs).folded := by
  unfold genericCategory
  rw [generic?_fold, generic?_fold, generic?_fold, generic?_fold, ← Option.map_or]
  cases (generic? "boundedvec" cs).or (generic? "weakboundedvec" cs) with
  | some inner => exact boundedVector_fold inner
  | none =>
    cases generic? "vec" cs with
    | some inner => exact around_fold (fun _ => rfl) inner
    | none =>
      cases generic? "option" cs with
      | some inner => exact around_fold (fun _ => rfl) inner
      | none => rfl

/-- Every rule makes the same of a name in lower case, with the element in lower case. -/
theorem classifyExact_fold (cs : List Char) :
    classifyExact (fold cs) = (classifyExact cs).folded := by
  unfold classifyExact
  -- in the order of the rules: each of them finds on both sides what it looks for, or on none
  rw [fold_fold, bracketed?_fold, generic?_fold]
  cases hwrapper : wrapper? (head (fold cs)) with
  | some category => exact (folded_of_wrapper? hwrapper).symm
  | none =>
    cases bracketed? cs with
    | some inner => exact fixedArray_fold inner
    | none =>
      cases generic? "compact" cs with
      | some inner =>
        rw [Option.map_none, Option.map_some]
        dsimp only
        rw [fold_fold]
        cases compactWidth? (fold inner) <;> rfl
      | none =>
        cases (scalar? (fold cs)).or (byteString? (fold cs)) with
        | some kind => rfl
        | none => exact genericCategory_fold cs

/-- Names that are equal up to blanks and the case of ASCII letters have the same category,
with the same kinds, lengths, widths and bounds, and with elements that are equal up to case.
An element is not empty, has no blank in it, and is a piece of the name without its blanks,
but not the whole of it. -/
theorem classify_ignores_case (name : String) :
    (∀ other, fold (Text.stripBlanks name).toList = fold (Text.stripBlanks other).toList →
      (classify name).folded = (classify other).folded) ∧
    ∀ elem, (classify name).element? = some elem →
      elem ≠ "" ∧ Text.stripBlanks elem = elem ∧
        elem.toList <:+: (Text.stripBlanks name).toList ∧
        elem.length < (Text.stripBlanks name).length := by
  refine ⟨fun other hsame => ?_, fun elem helem => ?_⟩
  · rw [classify, classify, ← classifyExact_fold, hsame, classifyExact_fold]
  · obtain ⟨hpiece, hlength⟩ := isInfix_of_element?_classifyExact helem
    rw [String.length_toList, String.length_toList] at hlength
    exact ⟨ne_empty_of_element?_classifyExact helem, stripBlanks_of_element? helem, hpiece, hlength⟩

theorem classify_ignores_case_spaced : classify "BoundedVec<(u8, H256), ConstU32<100>>" =
      .boundedVector "(u8,H256)" (some 100) ∧
    (classify " boundedvec < (U8,h256) ,constu32<\t100> >").folded =
      .boundedVector "(u8,h256)" (some 100) ∧
    Text.stripBlanks "(u8,H256)" = "(u8,H256)" := by
  have hclassify : classify "BoundedVec<(u8, H256), ConstU32<100>>" =
      .boundedVector "(u8,H256)" (some 100) := by
    decide
  obtain ⟨hother, helem⟩ := classify_ignores_case "BoundedVec<(u8, H256), ConstU32<100>>"
  have hsame := hother " boundedvec < (U8,h256) ,constu32<\t100> >" (by decide)
  rw [hclassify] at hsame helem
  exact ⟨hclassify, hsame.symm.trans (by decide), (helem _ rfl).2.1⟩

end TypeName

end ScaleCalls
