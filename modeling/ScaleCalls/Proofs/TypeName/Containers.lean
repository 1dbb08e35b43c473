import ScaleCalls.Proofs.Characters
import ScaleCalls.Proofs.Metadata.Reference
import ScaleCalls.Proofs.TypeName.Element

/-!
# How the names of containers are read

A container that is written around a text is read as a container of this text: whatever
stands in the text, its last bracket closes the first one. Only a bounded vector looks for
a comma, so there the text must not have one outside of its brackets.

## Main definitions

- `TypeName.Whole` — a text that is not cut at its commas
- `TypeName.Plain` — a text that is one word of a type name

## Main statements

- `TypeName.classifyExact_vec`, `classifyExact_option` and `classifyExact_boundedVec` — the
  containers with a word in front
- `TypeName.element?_classifyExact_of_plain` — a name that is no container
-/

namespace ScaleCalls.TypeName

variable {exact inner cs ds ws : List Char} {c opening closing : Char} {m n : Int} {text : String}

/-! ## Texts in one piece -/

/-- Read at this depth or deeper, the text is not cut and leaves the depth as it was. -/
def Whole (m : Int) (cs : List Char) : Prop :=
  ∀ depth rest, m ≤ depth → splitTopLevel ',' depth (cs ++ rest) =
    (splitTopLevel ',' depth rest).modifyHead (cs ++ ·)

theorem Whole.nil (m : Int) : Whole m [] := by
  intro depth rest _
  cases hsplit : splitTopLevel ',' depth rest <;> simp [hsplit]

theorem Whole.mono (h : Whole m cs) (hle : m ≤ n) : Whole n cs :=
  fun depth rest hdepth => h depth rest (Int.le_trans hle hdepth)

theorem Whole.append (h : Whole m cs) (hd : Whole m ds) : Whole m (cs ++ ds) := by
  intro depth rest hdepth
  rw [List.append_assoc, h depth (ds ++ rest) hdepth, hd depth rest hdepth,
    List.modifyHead_modifyHead]
  congr 1
  funext piece
  simp

/-- A character that is passed at some depth. -/
theorem splitTopLevel_cons {depth : Int} (h : ¬ (depth = 0 ∧ c = ',')) (rest : List Char) :
    splitTopLevel ',' depth (c :: rest) =
      (splitTopLevel ',' (depth + depthStep c) rest).modifyHead (c :: ·) := by
  rw [splitTopLevel, if_neg h]

theorem Whole.char (hstep : depthStep c = 0) (hcomma : c ≠ ',') (m : Int) : Whole m [c] := by
  intro depth rest _
  rw [List.singleton_append, splitTopLevel_cons fun h => hcomma h.2, hstep, Int.add_zero]
  rfl

/-- Inside of brackets a comma does not count. -/
theorem Whole.comma (hm : 0 < m) : Whole m [','] := by
  intro depth rest hdepth
  rw [List.singleton_append, splitTopLevel_cons fun h => by omega,
    show depthStep ',' = 0 from rfl, Int.add_zero]
  rfl

/-- No bracket and no comma. -/
def isPlain (c : Char) : Bool := depthStep c == 0 && c != ','

theorem isPlain_iff : isPlain c ↔ depthStep c = 0 ∧ c ≠ ',' := by
  rw [isPlain, Bool.and_eq_true, beq_iff_eq, bne_iff_ne]

theorem Whole.of_plain (h : cs.all isPlain) (m : Int) : Whole m cs := by
  induction cs with
  | nil => exact .nil m
  | cons c cs ih =>
    rw [List.all_cons, Bool.and_eq_true] at h
    obtain ⟨hstep, hcomma⟩ := isPlain_iff.1 h.1
    exact (Whole.char hstep hcomma m).append (ih h.2)

theorem Whole.brackets (h : Whole (m + 1) cs) (hopening : depthStep opening = 1)
    (hclosing : depthStep closing = -1) : Whole m (opening :: (cs ++ [closing])) := by
  intro depth rest hdepth
  have hopen : opening ≠ ',' := by rintro rfl; cases hopening
  have hclose : closing ≠ ',' := by rintro rfl; cases hclosing
  have hback : depth + 1 + -1 = depth := by omega
  rw [List.cons_append, splitTopLevel_cons fun h => hopen h.2, hopening, List.append_assoc,
    h (depth + 1) _ (by omega), List.singleton_append, splitTopLevel_cons fun h => hclose h.2,
    hclosing, hback, List.modifyHead_modifyHead, List.modifyHead_modifyHead]
  congr 1
  funext piece
  simp

/-- A word in front of angle brackets. -/
theorem Whole.angle (ws : List Char) (hws : ws.all isPlain) (h : Whole 0 inner) :
    Whole 0 (ws ++ '<' :: (inner ++ ['>'])) :=
  (Whole.of_plain hws 0).append ((h.mono (by decide)).brackets rfl rfl)

theorem splitTopLevel_of_whole (h : Whole 0 cs) : splitTopLevel ',' 0 cs = [cs] := by
  have hsplit := h 0 [] (Int.le_refl 0)
  rwa [List.append_nil, splitTopLevel, List.modifyHead_cons, List.append_nil] at hsplit

/-! ## Names that are no containers -/

/-- A name without angle brackets that is not in square brackets is no container. -/
theorem element?_classifyExact_of_plain (hangle : '<' ∉ exact) (hsquare : exact.head? ≠ some '[') :
    (classifyExact exact).element? = none := by
  cases helem : (classifyExact exact).element? with
  | none => rfl
  | some text =>
    exfalso
    unfold classifyExact at helem
    split at helem
    · rename_i hwrapper
      rw [element?_wrapper? hwrapper] at helem
      cases helem
    · split at helem
      · rename_i hbracketed
        rw [eq_of_bracketed? hbracketed] at hsquare
        exact hsquare rfl
      · split at helem
        · rename_i hcompact
          obtain ⟨before, hexact⟩ := exists_of_generic? hcompact
          exact hangle (by simp [hexact])
        · split at helem
          · cases helem
          · obtain ⟨before, inner, hexact, -⟩ := exists_of_element?_genericCategory helem
            exact hangle (by simp [hexact])

/-! ## Names with angle brackets -/

/-- The word in front of the angle bracket decides. -/
theorem generic?_self {word : String} (h : fold ws = word.toList) :
    generic? word (ws ++ '<' :: (inner ++ ['>'])) = some inner := by
  have hlength : word.length = ws.length := by
    rw [← String.length_toList, ← h, fold, List.length_map]
  unfold generic?
  rw [hlength, List.take_left, if_pos h, List.drop_left]
  simp

theorem generic?_of_head_ne {word : String} (hne : word.toList ≠ [])
    (h : word.toList.head? ≠ some c.toLower) : generic? word (c :: cs) = none := by
  obtain ⟨w, rest, hword⟩ := List.exists_cons_of_ne_nil hne
  unfold generic?
  rw [if_neg]
  rw [← String.length_toList, hword, List.length_cons, List.take_succ_cons, fold, List.map_cons]
  intro heq
  rw [hword, List.head?_cons, (List.cons.inj heq).1] at h
  exact h rfl

/-- A tuple is no container. -/
theorem element?_classifyExact_tuple (cs : List Char) :
    (classifyExact ('(' :: cs)).element? = none := by
  have hgeneric : ∀ word : String, word.toList ≠ [] → word.toList.head? ≠ some '(' →
      generic? word ('(' :: cs) = none := fun word hne hhead => generic?_of_head_ne hne hhead
  unfold classifyExact
  rw [bracketed?_of_head_ne (by decide), hgeneric "compact" (by decide) (by decide)]
  split
  · rename_i hwrapper
    exact element?_wrapper? hwrapper
  · dsimp only
    split
    · rfl
    · unfold genericCategory
      rw [hgeneric "boundedvec" (by decide) (by decide),
        hgeneric "weakboundedvec" (by decide) (by decide), hgeneric "vec" (by decide) (by decide),
        hgeneric "option" (by decide) (by decide)]
      rfl

theorem scalar?_of_getLast? {folded : List Char} (h : folded.getLast? = some '>') :
    scalar? folded = none := by
  have hne : ∀ word : String, word.toList.getLast? ≠ some '>' → String.ofList folded ≠ word := by
    rintro word hword rfl
    exact hword (by rw [String.toList_ofList, h])
  unfold scalar?
  split
  case h_13 =>
    rw [if_neg]
    intro hsuffix
    obtain ⟨front, rfl⟩ := List.isSuffixOf_iff_suffix.1 hsuffix
    rw [List.getLast?_append_of_ne_nil _ (by decide)] at h
    exact absurd h (by decide)
  all_goals
    rename_i heq
    exact absurd heq (hne _ (by decide))

theorem byteString?_of_ne {folded : List Char} (h : folded.getLast? = some '>')
    (hvec : folded ≠ "vec<u8>".toList) : byteString? folded = none := by
  have hne : ∀ word : String, word.toList.getLast? ≠ some '>' → String.ofList folded ≠ word := by
    rintro word hword rfl
    exact hword (by rw [String.toList_ofList, h])
  unfold byteString?
  split
  case h_2 heq =>
    refine absurd ?_ hvec
    rw [← heq, String.toList_ofList]
  case h_6 => rfl
  all_goals
    rename_i heq
    exact absurd heq (hne _ (by decide))

theorem fold_angle (ws inner : List Char) :
    fold (ws ++ '<' :: (inner ++ ['>'])) = fold ws ++ '<' :: (fold inner ++ ['>']) := by
  simp only [fold, List.map_append, List.map_cons, List.map_nil]
  rfl

theorem forall_ne_angle (h : '<' ∉ cs) : ∀ d ∈ cs, decide (d ≠ '<') = true := by
  intro d hd
  rw [decide_eq_true_eq]
  rintro rfl
  exact h hd

theorem takeWhile_angle (h : '<' ∉ cs) (ds : List Char) :
    (cs ++ '<' :: ds).takeWhile (· ≠ '<') = cs := by
  rw [List.takeWhile_append_of_pos (forall_ne_angle h), List.takeWhile_cons,
    if_neg (by decide), List.append_nil]

theorem append_angle_inj {back back' : List Char} (hcs : '<' ∉ cs) (hds : '<' ∉ ds)
    (h : cs ++ '<' :: back = ds ++ '<' :: back') : cs = ds ∧ back = back' := by
  have hsame := congrArg (List.takeWhile (· ≠ '<')) h
  rw [takeWhile_angle hcs, takeWhile_angle hds] at hsame
  subst hsame
  exact ⟨rfl, (List.cons.inj (List.append_cancel_left h)).2⟩

theorem head_angle (h : '<' ∉ cs) (ds : List Char) : head (cs ++ '<' :: ds) = lastSegment cs := by
  rw [head, takeWhile_angle h]

theorem head_of_not_mem (h : '<' ∉ cs) : head cs = lastSegment cs := by
  rw [head, List.takeWhile_eq_self_iff.2 (forall_ne_angle h)]

section Words

variable {word : String} (hws : fold ws = word.toList)

include hws

/-- A word in any letter case is not taken for one that starts with another letter. -/
theorem generic?_of_word {other : String} (hne : other.toList ≠ []) (hnil : word.toList ≠ [])
    (h : other.toList.head? ≠ word.toList.head?) (cs : List Char) :
    generic? other (ws ++ cs) = none := by
  cases ws with
  | nil => exact absurd hws.symm hnil
  | cons c rest =>
    rw [← hws] at h
    exact generic?_of_head_ne hne h

theorem bracketed?_of_word (h : word.toList.head? ≠ some '[') (cs : List Char) :
    bracketed? (ws ++ '<' :: cs) = none := by
  cases ws with
  | nil => exact bracketed?_of_head_ne (by decide)
  | cons c rest =>
    refine bracketed?_of_head_ne ?_
    rintro rfl
    rw [← hws] at h
    exact h (by rfl)

/-- A name that ends in an angle bracket is no scalar, so the word in front of the first
one is looked at. -/
theorem classifyExact_angle (hangle : '<' ∉ word.toList)
    (hwrapper : wrapper? (lastSegment word.toList) = none) (hnil : word.toList ≠ [])
    (hsquare : word.toList.head? ≠ some '[')
    (hcompact : "compact".toList.head? ≠ word.toList.head?)
    (hbytes : word.toList = "vec".toList → fold inner ≠ "u8".toList) :
    classifyExact (ws ++ '<' :: (inner ++ ['>'])) =
      genericCategory (ws ++ '<' :: (inner ++ ['>'])) := by
  have hlast : (word.toList ++ '<' :: (fold inner ++ ['>'])).getLast? = some '>' := by
    rw [← List.cons_append, ← List.append_assoc, List.getLast?_concat]
  have hvec : word.toList ++ '<' :: (fold inner ++ ['>']) ≠ "vec<u8>".toList := by
    have htarget : "vec<u8>".toList = "vec".toList ++ '<' :: ("u8".toList ++ ['>']) := by decide
    rw [htarget]
    intro heq
    obtain ⟨hword, -, hrest⟩ :=
      (List.append_cons_inj_of_notMem (by decide) (by decide)).1 heq.symm
    exact hbytes hword.symm (List.append_cancel_right hrest).symm
  unfold classifyExact
  rw [fold_angle, hws, head_angle hangle, hwrapper, bracketed?_of_word hws hsquare,
    generic?_of_word hws (by decide) hnil hcompact, scalar?_of_getLast? hlast,
    byteString?_of_ne hlast hvec]
  rfl

end Words

/-- A compact integer is no container. -/
theorem element?_classifyExact_compact (inner : List Char) :
    (classifyExact ('C' :: 'o' :: 'm' :: 'p' :: 'a' :: 'c' :: 't' :: '<' ::
      (inner ++ ['>']))).element? = none := by
  have hcompact : generic? "compact" ('C' :: 'o' :: 'm' :: 'p' :: 'a' :: 'c' :: 't' :: '<' ::
      (inner ++ ['>'])) = some inner :=
    generic?_self (show fold ['C', 'o', 'm', 'p', 'a', 'c', 't'] = "compact".toList by decide)
  unfold classifyExact
  rw [hcompact, bracketed?_of_head_ne (by decide)]
  split
  · rename_i hwrapper
    exact element?_wrapper? hwrapper
  · cases hwidth : compactWidth? (fold inner) <;> simp [hwidth, Category.element?]

theorem classifyExact_vec (hws : fold ws = "vec".toList) (inner : List Char) :
    classifyExact (ws ++ '<' :: (inner ++ ['>'])) =
      if fold inner = "u8".toList then .primitive .bytes else around .vector inner := by
  split
  case isTrue hbytes =>
    have hfold : fold (ws ++ '<' :: (inner ++ ['>'])) = "vec<u8>".toList := by
      rw [fold_angle, hws, hbytes]
      decide
    have hwrapper : wrapper? (head "vec<u8>".toList) = none := by decide
    have hbytes : (scalar? "vec<u8>".toList).or (byteString? "vec<u8>".toList) = some .bytes := by
      decide
    unfold classifyExact
    rw [hfold, hwrapper, bracketed?_of_word hws (by decide),
      generic?_of_word hws (by decide) (by decide) (by decide), hbytes]
  case isFalse hbytes =>
    rw [classifyExact_angle hws (by decide) (by decide) (by decide) (by decide) (by decide)
      fun _ => hbytes]
    unfold genericCategory
    rw [generic?_self hws, generic?_of_word hws (by decide) (by decide) (by decide),
      generic?_of_word hws (by decide) (by decide) (by decide)]
    rfl

theorem classifyExact_option (hws : fold ws = "option".toList) (inner : List Char) :
    classifyExact (ws ++ '<' :: (inner ++ ['>'])) = around .option inner := by
  rw [classifyExact_angle hws (by decide) (by decide) (by decide) (by decide) (by decide)
    fun h => absurd h (by decide)]
  unfold genericCategory
  rw [generic?_self hws, generic?_of_word hws (by decide) (by decide) (by decide),
    generic?_of_word hws (by decide) (by decide) (by decide),
    generic?_of_word hws (by decide) (by decide) (by decide)]
  rfl

theorem classifyExact_boundedVec
    (hws : fold ws = "boundedvec".toList ∨ fold ws = "weakboundedvec".toList)
    (inner : List Char) :
    classifyExact (ws ++ '<' :: (inner ++ ['>'])) = boundedVector inner := by
  have hgeneric : (generic? "boundedvec" (ws ++ '<' :: (inner ++ ['>']))).or
      (generic? "weakboundedvec" (ws ++ '<' :: (inner ++ ['>']))) = some inner := by
    rcases hws with hws | hws
    · rw [generic?_self hws, Option.some_or]
    · rw [generic?_self hws, generic?_of_word hws (by decide) (by decide) (by decide),
        Option.none_or]
  have hangle : classifyExact (ws ++ '<' :: (inner ++ ['>'])) =
      genericCategory (ws ++ '<' :: (inner ++ ['>'])) := by
    rcases hws with hws | hws <;>
      exact classifyExact_angle hws (by decide) (by decide) (by decide) (by decide) (by decide)
        fun h => absurd h (by decide)
  rw [hangle]
  unfold genericCategory
  rw [hgeneric]

/-- Without a comma outside of its brackets the text is the element, and there is no bound. -/
theorem boundedVector_of_whole (h : Whole 0 inner) :
    boundedVector inner =
      if inner.isEmpty then .unsupported
      else if fold inner = "u8".toList then .primitive .bytes
      else .boundedVector (String.ofList inner) none := by
  rw [boundedVector, splitTopLevel_of_whole h]
  rfl

theorem element?_around {container : String → Category}
    (hc : ∀ elem, (container elem).element? = some elem) :
    (around container inner).element? =
      if inner.isEmpty then none else some (String.ofList inner) := by
  unfold around
  split
  · rfl
  · rw [hc]

/-! ## Characters that are no brackets -/

/-- What no bracket has, every character that has it is no bracket. -/
theorem depthStep_of_kind {kind : Char → Bool}
    (hkind : ['<', '(', '[', '>', ')', ']'].any kind = false) (h : kind c) : depthStep c = 0 := by
  have hne : ∀ d ∈ ['<', '(', '[', '>', ')', ']'], c ≠ d := by
    rintro d hd rfl
    exact List.any_eq_false.1 hkind c hd h
  simp only [List.forall_mem_cons] at hne
  obtain ⟨hne₁, hne₂, hne₃, hne₄, hne₅, hne₆, -⟩ := hne
  simp [depthStep, hne₁, hne₂, hne₃, hne₄, hne₅, hne₆]

theorem depthStep_of_isDigit (h : c.isDigit) : depthStep c = 0 :=
  depthStep_of_kind (by decide) h

theorem all_isPlain_of_isDigit (h : ∀ c ∈ cs, c.isDigit) : cs.all isPlain := by
  refine List.all_eq_true.2 fun c hc => isPlain_iff.2 ⟨depthStep_of_isDigit (h c hc), ?_⟩
  exact Text.ne_of_isDigit (h c hc) (by decide)

/-! ## Words -/

/-- A text that is one word of a type name: no blank, no bracket and no comma. -/
def Plain (text : String) : Prop :=
  text ≠ "" ∧ text.toList.all fun c => !Text.isBlank c && isPlain c

instance (text : String) : Decidable (Plain text) :=
  inferInstanceAs (Decidable (_ ∧ _))

theorem plain_iff : Plain text ↔
    text ≠ "" ∧ (∀ c ∈ text.toList, Text.isBlank c = false) ∧ text.toList.all isPlain := by
  rw [Plain, List.all_eq_true, List.all_eq_true]
  refine and_congr_right fun _ => ⟨fun h => ⟨fun c hc => ?_, fun c hc => ?_⟩, fun h c hc => ?_⟩
  · have hblank := (Bool.and_eq_true_iff.1 (h c hc)).1
    rwa [Bool.not_eq_true'] at hblank
  · exact (Bool.and_eq_true_iff.1 (h c hc)).2
  · rw [h.1 c hc, h.2 c hc]
    rfl

theorem Plain.stripBlanks (h : Plain text) : Text.stripBlanks text = text :=
  Text.stripBlanks_eq_self (plain_iff.1 h).2.1

theorem Plain.append {front back : String} (hfront : Plain front) (hback : Plain back) :
    Plain (front ++ back) := by
  refine ⟨fun hempty => hfront.1 ?_, ?_⟩
  · rw [← String.toList_inj, String.toList_append] at hempty
    exact String.toList_inj.1 (List.append_eq_nil_iff.1 hempty).1
  · rw [String.toList_append, List.all_append, hfront.2, hback.2]
    rfl

theorem plain_toString (n : Nat) : Plain (toString n) := by
  have hdigits : ∀ c ∈ Nat.toDigits 10 n, c.isDigit := fun c hc =>
    Text.isDigit_of_mem_toDigits hc
  rw [Nat.toString_eq_repr]
  refine plain_iff.2 ⟨fun hempty => ?_, ?_⟩
  · rw [← String.toList_inj, Nat.toList_repr] at hempty
    exact Nat.toDigits_ne_nil hempty
  · rw [Nat.toList_repr]
    exact ⟨fun c hc => Text.not_isBlank_of_isDigit (hdigits c hc), all_isPlain_of_isDigit hdigits⟩

theorem plain_joinPath {path : List String} (hpath : path ≠ [])
    (h : ∀ segment ∈ path, Plain segment) : Plain (joinPath path) := by
  induction path with
  | nil => exact absurd rfl hpath
  | cons segment rest ih =>
    cases rest with
    | nil => exact h segment List.mem_cons_self
    | cons second rest =>
      have hrest := ih (List.cons_ne_nil _ _) fun s hs => h s (List.mem_cons_of_mem _ hs)
      have hsplit : joinPath (segment :: second :: rest) =
          segment ++ "::" ++ joinPath (second :: rest) := String.intercalate_cons_cons
      rw [hsplit]
      exact ((h segment List.mem_cons_self).append (by decide)).append hrest

theorem Plain.whole (h : Plain text) : Whole 0 text.toList :=
  .of_plain (plain_iff.1 h).2.2 0

theorem Plain.element?_classify (h : Plain text) : (classify text).element? = none := by
  rw [classify, h.stripBlanks]
  have hne : ∀ c : Char, isPlain c = false → c ∉ text.toList := fun c hc hmem => by
    rw [List.all_eq_true.1 (plain_iff.1 h).2.2 c hmem] at hc
    cases hc
  refine element?_classifyExact_of_plain (hne '<' (by decide)) fun hhead => ?_
  exact hne '[' (by decide) (List.mem_of_head? hhead)

end ScaleCalls.TypeName
