import Mathlib.Data.List.Infix
import ScaleCalls.Proofs.TypeName.Containers

/-!
# How the names of generic containers are read

A container word in any letter case, with a text in angle brackets behind it, is read as this
container of the text, in the spelling of the text. For vectors and options the text can be
anything. For bounded vectors the brackets of element and bound have to be balanced, and their
commas have to stand inside of brackets: then the one comma outside parts the two.

## Main definitions

- `TypeName.level`, `TypeName.Balanced`, `TypeName.CommasInside` — the brackets of a text
- `TypeName.StatesBound` — a text that says how long a vector can be

## Main statements

- `TypeName.whole_of_balanced` — a balanced text is not cut
- `TypeName.bound?_eq_some_iff` — which bounds are read
- `TypeName.nested_of_element?` — the names inside a name, and those inside its element
- `TypeName.classify_generic` — what the name of a generic container is read as
-/

namespace ScaleCalls.TypeName

variable {cs ds inner : List Char} {c : Char} {n : Nat} {name text word : String}

/-! ## Brackets -/

/-- How many brackets a text opens and does not close. The kinds of brackets are not told
apart. -/
def level (cs : List Char) : Int := (cs.map depthStep).sum

@[simp] theorem level_nil : level [] = 0 := rfl

@[simp] theorem level_cons (c : Char) (cs : List Char) :
    level (c :: cs) = depthStep c + level cs := by
  simp [level]

/-- No bracket is closed before it is opened, and in the end all are closed. -/
def Balanced (cs : List Char) : Prop :=
  level cs = 0 ∧ ∀ front, front <+: cs → 0 ≤ level front

/-- Every comma stands inside of brackets. -/
def CommasInside (cs : List Char) : Prop := ∀ front, front ++ [','] <+: cs → level front ≠ 0

instance (cs : List Char) : Decidable (Balanced cs) :=
  decidable_of_iff (level cs = 0 ∧ ∀ front ∈ cs.inits, 0 ≤ level front)
    (by simp only [List.mem_inits, Balanced])

instance (cs : List Char) : Decidable (CommasInside cs) :=
  decidable_of_iff (∀ front ∈ cs.inits, front ++ [','] ∈ cs.inits → level front ≠ 0) (by
    simp only [List.mem_inits, CommasInside]
    exact forall_congr' fun front =>
      ⟨fun h hcomma => h ((List.prefix_append front _).trans hcomma) hcomma, fun h _ => h⟩)

/-- A text without a comma at the ground is passed as one piece, also if characters are left
out of it that are neither brackets nor commas. -/
theorem splitTopLevel_filter_append {p : Char → Bool} (hp : ∀ c, p c = false → depthStep c = 0)
    {depth : Int} (h : ∀ front, front ++ [','] <+: cs → depth + level front ≠ 0)
    (rest : List Char) :
    splitTopLevel ',' depth (cs.filter p ++ rest) =
      (splitTopLevel ',' (depth + level cs) rest).modifyHead (cs.filter p ++ ·) := by
  induction cs generalizing depth with
  | nil => cases hsplit : splitTopLevel ',' depth rest <;> simp [hsplit]
  | cons c cs ih =>
    have hrest : ∀ front, front ++ [','] <+: cs → depth + depthStep c + level front ≠ 0 := by
      intro front hfront
      have hne := h (c :: front) (List.cons_prefix_cons.2 ⟨rfl, hfront⟩)
      rwa [level_cons, ← Int.add_assoc] at hne
    rw [level_cons, ← Int.add_assoc, List.filter_cons]
    split
    · have hc : ¬ (depth = 0 ∧ c = ',') := by
        rintro ⟨rfl, rfl⟩
        exact h [] (List.cons_prefix_cons.2 ⟨rfl, List.nil_prefix⟩) rfl
      rw [List.cons_append, splitTopLevel_cons hc, ih hrest, List.modifyHead_modifyHead]
      congr 1
    · rename_i hout
      have hzero : depthStep c = 0 := hp c (by simpa using hout)
      rw [← ih hrest, hzero, Int.add_zero]

theorem depthStep_of_isBlank (h : Text.isBlank c) : depthStep c = 0 :=
  depthStep_of_kind (by decide) h

/-- A text with balanced brackets and all commas inside of them is not cut. -/
theorem whole_of_balanced (h : Balanced text.toList) (hcommas : CommasInside text.toList) :
    Whole 0 (Text.stripBlanks text).toList := by
  intro depth rest hdepth
  rw [Text.toList_stripBlanks, splitTopLevel_filter_append, h.1, Int.add_zero]
  · exact fun c hc => depthStep_of_isBlank (by simpa using hc)
  · intro front hfront
    have hlevel := h.2 front ((List.prefix_append front _).trans hfront)
    have hne := hcommas front hfront
    omega

/-! ## Bounds -/

/-- The one comma outside of brackets parts the element from the bound. -/
theorem boundedVector_of_wholes (h : Whole 0 inner) (hd : Whole 0 ds) :
    boundedVector (inner ++ ',' :: ds) =
      if inner.isEmpty then .unsupported
      else if fold inner = "u8".toList then .primitive .bytes
      else .boundedVector (String.ofList inner) (bound? ds) := by
  have hsplit : splitTopLevel ',' 0 (inner ++ ',' :: ds) = [inner, ds] := by
    rw [h 0 _ (Int.le_refl 0), splitTopLevel, if_pos ⟨rfl, rfl⟩, splitTopLevel_of_whole hd,
      List.modifyHead_cons, List.append_nil]
  rw [boundedVector, hsplit]
  rfl

/-- A bound is a numeral of 64 bits, or such a numeral in the angle brackets of any word. -/
def StatesBound (cs : List Char) (n : Nat) : Prop :=
  Text.numeral? Text.limit64 cs = some n ∨
    ∃ front digits, cs = front ++ '<' :: (digits ++ ['>']) ∧ '<' ∉ front ∧
      Text.numeral? Text.limit64 digits = some n

theorem bound?_of_not_mem (h : '<' ∉ cs) : bound? cs = Text.numeral? Text.limit64 cs := by
  have hdrop : cs.dropWhile (· ≠ '<') = [] := List.dropWhile_eq_nil_iff.2 (forall_ne_angle h)
  unfold bound?
  rw [hdrop]
  cases Text.numeral? Text.limit64 cs <;> rfl

/-- With an angle bracket the numeral stands behind the first one, up to the end. -/
theorem bound?_of_angle (h : '<' ∉ cs) (back : List Char) : bound? (cs ++ '<' :: back) =
    if back.getLast? = some '>' then Text.numeral? Text.limit64 back.dropLast else none := by
  have hnone : Text.numeral? Text.limit64 (cs ++ '<' :: back) = none := by
    refine Option.eq_none_iff_forall_ne_some.2 fun n hn => ?_
    exact Text.not_mem_of_numeral? (d := '<') hn (by decide) (by simp)
  have hdrop : (cs ++ '<' :: back).dropWhile (· ≠ '<') = '<' :: back := by
    rw [List.dropWhile_append_of_pos (forall_ne_angle h), List.dropWhile_cons,
      if_neg (by decide)]
  unfold bound?
  rw [hnone, hdrop]
  rfl

theorem bound?_eq_some_iff : bound? cs = some n ↔ StatesBound cs n := by
  by_cases hmem : '<' ∈ cs
  · obtain ⟨front, back, rfl, hfront⟩ := List.eq_append_cons_of_mem hmem
    rw [bound?_of_angle hfront]
    constructor
    · intro h
      split at h
      · rename_i hlast
        obtain ⟨digits, rfl⟩ := List.getLast?_eq_some_iff.1 hlast
        rw [List.dropLast_concat] at h
        exact .inr ⟨front, digits, rfl, hfront, h⟩
      · cases h
    · rintro (h | ⟨front', digits, heq, hfront', h⟩)
      · exact absurd hmem (Text.not_mem_of_numeral? h (by decide))
      · obtain ⟨rfl, rfl⟩ := append_angle_inj hfront hfront' heq
        rw [if_pos List.getLast?_concat, List.dropLast_concat, h]
  · rw [bound?_of_not_mem hmem]
    refine ⟨.inl, fun h => h.resolve_right ?_⟩
    rintro ⟨front, digits, rfl, -⟩
    simp at hmem

/-! ## Names inside a name -/

theorem nestedWithin_succ {depth : Nat} (h : name.length ≤ depth) :
    nestedWithin (depth + 1) name = nestedWithin depth name := by
  induction depth generalizing name with
  | zero =>
    cases helem : (classify name).element? with
    | none => rw [nestedWithin, nestedWithin, helem, Option.map_none, Option.getD_none]
    | some text =>
      have := length_lt_of_element? helem
      omega
  | succ depth ih =>
    rw [nestedWithin, nestedWithin]
    cases helem : (classify name).element? with
    | none => rfl
    | some text =>
      have := length_lt_of_element? helem
      rw [Option.map_some, Option.map_some, ih (by omega)]

/-- The depth that a name is followed to does not count beyond its length. -/
theorem nestedWithin_eq_nested {depth : Nat} (h : name.length ≤ depth) :
    nestedWithin depth name = nested name := by
  induction h with
  | refl => rfl
  | step h ih => rw [nestedWithin_succ h, ih]

/-- Inside of a name are the name itself and what is inside of its element. -/
theorem nested_of_element? (h : (classify name).element? = some text) :
    nested name = name :: nested text := by
  have hlt := length_lt_of_element? h
  obtain ⟨depth, hdepth⟩ := Nat.exists_eq_add_one_of_ne_zero (Nat.ne_of_gt (Nat.zero_lt_of_lt hlt))
  rw [nested, hdepth, nestedWithin, h, Option.map_some, Option.getD_some,
    nestedWithin_eq_nested (by omega)]

/-! ## Containers -/

theorem not_isBlank_of_isAlpha (h : c.isAlpha) : Text.isBlank c = false := by
  have hrange := Text.toNat_of_isAlpha h
  exact Text.not_isBlank_of_range (by omega) (by omega)

/-- A word of letters in any letter case has no blank in it. -/
theorem stripBlanks_of_fold {letters : String} (h : fold word.toList = letters.toList)
    (hletters : letters.toList.all Char.isAlpha) : Text.stripBlanks word = word := by
  refine Text.stripBlanks_eq_self fun c hc => not_isBlank_of_isAlpha ?_
  have hmem : c.toLower ∈ letters.toList := h ▸ List.mem_map_of_mem hc
  have halpha := List.all_eq_true.1 hletters _ hmem
  obtain hsame | ⟨hletter, -⟩ := Text.toLower_cases c
  · rwa [hsame] at halpha
  · exact hletter

theorem toList_stripBlanks_generic (hword : Text.stripBlanks word = word) (inner : String) :
    (Text.stripBlanks (word ++ "<" ++ inner ++ ">")).toList =
      word.toList ++ '<' :: ((Text.stripBlanks inner).toList ++ ['>']) := by
  rw [Text.toList_stripBlanks_append, Text.toList_stripBlanks_append,
    Text.toList_stripBlanks_append, hword, List.append_assoc, List.append_assoc]
  rfl

/-- For a text without blanks, and for a container word in any letter case: `Vec<T>` is read as
a vector of `T`, or as bytes if `T` is `u8` in any letter case, and `Option<T>` as an option.
With balanced brackets in `T` and its commas inside of them, `BoundedVec<T>` and
`WeakBoundedVec<T>` are read as bounded vectors of `T` without a bound, and `BoundedVec<T,B>`
as one with the bound that `B` states, if it states one; or all of them as bytes. The element
has the spelling of `T`, so the names inside of such a name are the name itself and the names
inside of `T`. -/
theorem classify_generic (word : String) {text : String} (htext : text ≠ "")
    (hblank : text.toList.all fun c => !Text.isBlank c) :
    (fold word.toList = "vec".toList → classify (word ++ "<" ++ text ++ ">") =
      if fold text.toList = "u8".toList then .primitive .bytes else .vector text) ∧
    (fold word.toList = "option".toList →
      classify (word ++ "<" ++ text ++ ">") = .option text) ∧
    (fold word.toList = "boundedvec".toList ∨ fold word.toList = "weakboundedvec".toList →
      Balanced text.toList → CommasInside text.toList →
        classify (word ++ "<" ++ text ++ ">") =
          (if fold text.toList = "u8".toList then .primitive .bytes
          else .boundedVector text none) ∧
        ∀ bound : String, Balanced bound.toList → CommasInside bound.toList →
          ∃ stated : Option Nat,
            (∀ n, stated = some n ↔ StatesBound (Text.stripBlanks bound).toList n) ∧
            classify (word ++ "<" ++ text ++ "," ++ bound ++ ">") =
              if fold text.toList = "u8".toList then .primitive .bytes
              else .boundedVector text stated) ∧
    ∀ name, (classify name).element? = some text → nested name = name :: nested text := by
  have hstrip : Text.stripBlanks text = text :=
    Text.stripBlanks_eq_self fun c hc => by simpa using List.all_eq_true.1 hblank c hc
  have hne : text.toList.isEmpty = false := by
    rw [List.isEmpty_eq_false_iff, ne_eq, String.toList_eq_nil_iff]
    exact htext
  refine ⟨fun hword => ?_, fun hword => ?_, fun hword hbalanced hcommas => ?_,
    fun name => nested_of_element?⟩
  · rw [classify, toList_stripBlanks_generic (stripBlanks_of_fold hword (by decide)), hstrip,
      classifyExact_vec hword, around, hne, String.ofList_toList]
    rfl
  · rw [classify, toList_stripBlanks_generic (stripBlanks_of_fold hword (by decide)), hstrip,
      classifyExact_option hword, around, hne, if_neg (by decide), String.ofList_toList]
  · have hletters : Text.stripBlanks word = word := by
      rcases hword with hword | hword <;> exact stripBlanks_of_fold hword (by decide)
    have hwhole := whole_of_balanced hbalanced hcommas
    rw [hstrip] at hwhole
    constructor
    · rw [classify, toList_stripBlanks_generic hletters, hstrip, classifyExact_boundedVec hword,
        boundedVector_of_whole hwhole, hne, if_neg (by decide), String.ofList_toList]
    · intro bound hbalanced' hcommas'
      have hassoc : word ++ "<" ++ text ++ "," ++ bound ++ ">" =
          word ++ "<" ++ (text ++ "," ++ bound) ++ ">" := by
        simp only [String.append_assoc]
      have hinner : (Text.stripBlanks (text ++ "," ++ bound)).toList =
          text.toList ++ ',' :: (Text.stripBlanks bound).toList := by
        rw [Text.toList_stripBlanks_append, Text.toList_stripBlanks_append, hstrip,
          List.append_assoc]
        rfl
      refine ⟨bound? (Text.stripBlanks bound).toList, fun n => bound?_eq_some_iff, ?_⟩
      rw [hassoc, classify, toList_stripBlanks_generic hletters, hinner,
        classifyExact_boundedVec hword,
        boundedVector_of_wholes hwhole (whole_of_balanced hbalanced' hcommas'), hne,
        if_neg (by decide), String.ofList_toList]

/-- Arrays of pairs in every kind of container, the bound being spelled as a constant type. -/
theorem classify_generic_pairs :
    classify "vec<[(u8,H256);2]>" = .vector "[(u8,H256);2]" ∧
    classify "Option<[(u8,H256);2]>" = .option "[(u8,H256);2]" ∧
    classify "BoundedVec<[(u8,H256);2]>" = .boundedVector "[(u8,H256);2]" none ∧
    classify "WeakBoundedVec<[(u8,H256);2],ConstU32<100>>" =
      .boundedVector "[(u8,H256);2]" (some 100) := by
  have hne : ("[(u8,H256);2]" : String) ≠ "" := by decide
  have hbytes : fold "[(u8,H256);2]".toList ≠ "u8".toList := by decide
  have hbalanced : Balanced "[(u8,H256);2]".toList := by decide +kernel
  have hcommas : CommasInside "[(u8,H256);2]".toList := by decide +kernel
  have hvec := (classify_generic "vec" hne (by decide +kernel)).1 (by decide)
  have hoption := (classify_generic "Option" hne (by decide +kernel)).2.1 (by decide)
  have hbounded := ((classify_generic "BoundedVec" hne (by decide +kernel)).2.2.1
    (.inl (by decide)) hbalanced hcommas).1
  obtain ⟨stated, hstated, hweak⟩ :=
    ((classify_generic "WeakBoundedVec" hne (by decide +kernel)).2.2.1
      (.inr (by decide)) hbalanced hcommas).2 "ConstU32<100>" (by decide) (by decide)
  have hundred : StatesBound "ConstU32<100>".toList 100 :=
    .inr ⟨"ConstU32".toList, "100".toList, by decide, by decide, by decide⟩
  rw [if_neg hbytes] at hvec hbounded hweak
  rw [(hstated 100).2 hundred] at hweak
  exact ⟨hvec, hoption, hbounded, hweak⟩

end ScaleCalls.TypeName
