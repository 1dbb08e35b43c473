import ScaleCalls.Proofs.Registry.Containment
import ScaleCalls.Proofs.Registry.Layout
import ScaleCalls.Proofs.TypeName.Arrays

/-!
# How registry names are spelled and read

The texts that the naming of a registry can write for a type: its reference, a text of its
own, or the texts of other types with brackets around them. What is written around the
text of an element is read as a container of this text, as long as the segments of the
paths are plain words.

## Main definitions

- `Registry.WellFormed` — positions as numbers, plain paths, lengths of 32 bits
- `Registry.Word` — a plain text that is read as a reference to nothing else
- `Registry.Around` — a name around the text of another type
- `Registry.Spelled` — the texts that can be written for a type

## Main statements

- `Spelled.element` — what a text is read as a container of
- `Spelled.reference_of_lookupId?` — what a text is read as a reference to
-/

namespace ScaleCalls.Registry

variable {registry : Registry} {entry : Entry} {number : UInt32} {text elem : String}
  {container : Container}

/-- The lengths of arrays have 32 bits. -/
def Definition.Sized : Definition → Prop
  | .array len _ => len < Text.limit32
  | _ => True

instance : (definition : Definition) → Decidable definition.Sized
  | .array len _ => inferInstanceAs (Decidable (len < Text.limit32))
  | .composite _ | .variant _ | .sequence _ | .tuple _ | .scalar _ | .compact _ | .bitSequence =>
    .isTrue trivial

/-- The tables that a node sends: numbers are positions, the segments of paths are words
that are not taken for numbers, and lengths have 32 bits. -/
structure WellFormed (registry : Registry) : Prop where
  positional : registry.Positional
  segments : ∀ entry ∈ registry.types, ∀ segment ∈ entry.path,
    TypeName.Plain segment ∧ lookupId? segment = none
  lengths : ∀ entry ∈ registry.types, entry.definition.Sized

/-- A plain text that is read as a reference to this type, or as none. -/
def Word (number : UInt32) (text : String) : Prop :=
  TypeName.Plain text ∧ ∀ id, lookupId? text = some id → id = number

/-- The name that a type gets around a text for another type: in the brackets of a
container, or as it is. -/
inductive Around (registry : Registry) (outer inner : UInt32) (text : String) : String → Prop where
  | container {entry : Entry} {container : Container} (hentry : registry.get? outer = some entry)
      (hcontainer : entry.container? = some (container, inner)) :
      Around registry outer inner text (container.before ++ text ++ container.after)
  | newtype (htakes : registry.TakesName outer inner) : Around registry outer inner text text

/-- The texts that can be written for a type: words, and around the texts of other types
what their kind demands. -/
inductive Spelled (registry : Registry) : UInt32 → String → Prop where
  | word {number : UInt32} {text : String} (h : Word number text) : Spelled registry number text
  | around {outer inner : UInt32} {text name : String}
      (haround : Around registry outer inner text name) (h : Spelled registry inner text) :
      Spelled registry outer name
  | compact {outer inner : UInt32} {text : String} (h : Spelled registry inner text) :
      Spelled registry outer ("Compact<" ++ text ++ ">")
  | tuple {outer : UInt32} {parts : List (UInt32 × String)}
      (h : ∀ part ∈ parts, Spelled registry part.1 part.2) :
      Spelled registry outer ("(" ++ String.intercalate ", " (parts.map Prod.snd) ++ ")")

/-! ## Words -/

theorem word_reference (number : UInt32) : Word number (idReference number) := by
  have hplain : TypeName.Plain ("Lookup" ++ toString number.toNat) :=
    TypeName.Plain.append (by decide) (TypeName.plain_toString _)
  refine ⟨hplain, fun id hid => ?_⟩
  rw [lookupId?_idReference] at hid
  exact (Option.some.inj hid).symm

theorem word_of_lookupId? (hplain : TypeName.Plain text) (h : lookupId? text = none) :
    Word number text := by
  refine ⟨hplain, fun id hid => ?_⟩
  rw [h] at hid
  cases hid

theorem word_scalar (kind : Scalar) : Word number kind.word := by
  cases kind <;> exact word_of_lookupId? (by decide) (by decide)

theorem word_position (number : UInt32) : Word number s!"Composite{number.toNat}" := by
  refine ⟨TypeName.Plain.append (by decide) (TypeName.plain_toString _), fun id hid => ?_⟩
  exact eq_of_lookupId?_append (by decide) (by decide) hid

namespace WellFormed

variable (h : registry.WellFormed)

include h in
theorem word_segment (hentry : registry.get? number = some entry) {segment : String}
    (hsegment : segment ∈ entry.path) : Word number segment := by
  obtain ⟨hplain, hlookup⟩ := h.segments entry (Array.mem_of_getElem? hentry) segment hsegment
  exact word_of_lookupId? hplain hlookup

include h in
theorem plain_path (hentry : registry.get? number = some entry) (hpath : entry.path ≠ []) :
    TypeName.Plain (joinPath entry.path) :=
  TypeName.plain_joinPath hpath fun segment hsegment =>
    (h.segments entry (Array.mem_of_getElem? hentry) segment hsegment).1

include h in
theorem lookupId?_path (hentry : registry.get? number = some entry) (hpath : entry.path ≠ []) :
    lookupId? (joinPath entry.path) = none := by
  have hsegments := h.segments entry (Array.mem_of_getElem? hentry)
  match hsplit : entry.path with
  | [] => exact absurd hsplit hpath
  | [segment] => exact (hsegments segment (by rw [hsplit]; exact List.mem_singleton_self _)).2
  | segment :: second :: rest =>
    -- a path with two segments has a colon in it
    have hjoin : joinPath (segment :: second :: rest) =
        segment ++ "::" ++ joinPath (second :: rest) := String.intercalate_cons_cons
    cases hid : lookupId? (joinPath (segment :: second :: rest)) with
    | none => rfl
    | some id =>
      have hcolon : ':' ∈ (joinPath (segment :: second :: rest)).toList := by
        rw [hjoin, String.toList_append, String.toList_append]
        exact List.mem_append_left _ (List.mem_append_right _ (by decide))
      exact absurd (isAlphanum_of_lookupId? hid ':' hcolon) (by decide)

include h in
theorem word_path (hentry : registry.get? number = some entry) (hpath : entry.path ≠ []) :
    Word number (joinPath entry.path) :=
  word_of_lookupId? (h.plain_path hentry hpath) (h.lookupId?_path hentry hpath)

include h in
theorem word_path_number (hentry : registry.get? number = some entry) (hpath : entry.path ≠ []) :
    Word number s!"{joinPath entry.path}{number.toNat}" := by
  have hplain := h.plain_path hentry hpath
  refine ⟨hplain.append (TypeName.plain_toString _), fun id hid => ?_⟩
  exact eq_of_lookupId?_append hplain.1 (h.lookupId?_path hentry hpath) hid

end WellFormed

/-! ## Containers around a text -/

/-- What is written in front of an element, without blanks. -/
def Container.opening : Container → List Char
  | vector => ['V', 'e', 'c', '<']
  | array _ => ['[']
  | option => ['O', 'p', 't', 'i', 'o', 'n', '<']
  | boundedVector => ['B', 'o', 'u', 'n', 'd', 'e', 'd', 'V', 'e', 'c', '<']

/-- What is written behind an element, without blanks. -/
def Container.closing : Container → List Char
  | array len => ';' :: (Nat.toDigits 10 len ++ [']'])
  | vector | option | boundedVector => ['>']

theorem Container.exists_bracket (container : Container) :
    ∃ c ∈ container.opening, c.isAlphanum = false := by
  cases container with
  | vector | option | boundedVector => exact ⟨'<', by simp [opening], by decide⟩
  | array len => exact ⟨'[', by simp [opening], by decide⟩

theorem colon_not_mem_toDigits (n : Nat) : ':' ∉ Nat.toDigits 10 n := fun hmem =>
  absurd (Text.isDigit_of_mem_toDigits hmem) (by decide)

theorem Container.colon_not_mem (container : Container) :
    ':' ∉ container.opening ∧ ':' ∉ container.closing := by
  cases container with
  | vector | option | boundedVector => decide
  | array len => simp [opening, closing, colon_not_mem_toDigits]

theorem toList_before (container : Container) :
    (Text.stripBlanks container.before).toList = container.opening := by
  cases container with
  | vector | option | boundedVector => decide
  | array len => exact show (Text.stripBlanks "[").toList = ['['] by decide

theorem toList_after (container : Container) :
    (Text.stripBlanks container.after).toList = container.closing := by
  cases container with
  | vector | option | boundedVector => exact show (Text.stripBlanks ">").toList = ['>'] by decide
  | array len =>
    have hafter : (Container.array len).after = "; " ++ toString len ++ "]" := rfl
    rw [hafter, Text.toList_stripBlanks_append, Text.toList_stripBlanks_append,
      Text.toList_stripBlanks_toString, show (Text.stripBlanks "; ").toList = [';'] by decide,
      show (Text.stripBlanks "]").toList = [']'] by decide]
    rfl

theorem toList_container (container : Container) (text : String) :
    (Text.stripBlanks (container.before ++ text ++ container.after)).toList =
      container.opening ++ ((Text.stripBlanks text).toList ++ container.closing) := by
  rw [Text.toList_stripBlanks_append, Text.toList_stripBlanks_append, toList_before, toList_after,
    List.append_assoc]

/-- The length of an array has 32 bits. -/
def Container.Sized : Container → Prop
  | array len => len < Text.limit32
  | vector | option | boundedVector => True

theorem WellFormed.sized (h : registry.WellFormed) {inner : UInt32}
    (hentry : registry.get? number = some entry)
    (hcontainer : entry.container? = some (container, inner)) : container.Sized := by
  have hsized := h.lengths entry (Array.mem_of_getElem? hentry)
  cases container with
  | vector | option | boundedVector => exact trivial
  | array len =>
    rw [definition_of_array hcontainer] at hsized
    exact hsized

/-- What a container is written around is read as its element. It has none if that is empty
or the type of bytes, or if it is taken for something else than an array. -/
theorem Container.element?_cases {inner : List Char} (hsized : container.Sized)
    (hwhole : TypeName.Whole 0 inner) :
    let category := TypeName.classifyExact (container.opening ++ (inner ++ container.closing))
    category.element? = some (String.ofList inner) ∨
      category.element? = none ∧ (inner.isEmpty ∨ TypeName.fold inner = "u8".toList ∨
        ∃ other, TypeName.Overtaken inner other) := by
  intro category
  cases container with
  | vector =>
    have hvec : category = _ :=
      TypeName.classifyExact_vec (show TypeName.fold ['V', 'e', 'c'] = _ by decide) inner
    rw [hvec]
    split
    case isTrue hbytes => exact .inr ⟨rfl, .inr (.inl hbytes)⟩
    case isFalse =>
      rw [TypeName.element?_around fun _ => rfl]
      split
      case isTrue hnil => exact .inr ⟨rfl, .inl hnil⟩
      case isFalse => exact .inl rfl
  | option =>
    have hoption : category = _ := TypeName.classifyExact_option
      (show TypeName.fold ['O', 'p', 't', 'i', 'o', 'n'] = _ by decide) inner
    rw [hoption, TypeName.element?_around fun _ => rfl]
    split
    case isTrue hnil => exact .inr ⟨rfl, .inl hnil⟩
    case isFalse => exact .inl rfl
  | boundedVector =>
    have hbounded : category = _ := TypeName.classifyExact_boundedVec
      (.inl (show TypeName.fold ['B', 'o', 'u', 'n', 'd', 'e', 'd', 'V', 'e', 'c'] = _ by decide))
      inner
    rw [hbounded, TypeName.boundedVector_of_whole hwhole]
    split
    case isTrue hnil => exact .inr ⟨rfl, .inl hnil⟩
    case isFalse =>
      split
      case isTrue hbytes => exact .inr ⟨rfl, .inr (.inl hbytes)⟩
      case isFalse => exact .inl rfl
  | array len =>
    have hlen : len < Text.limit64 :=
      Nat.lt_of_lt_of_le hsized (Nat.pow_le_pow_right (by decide) (by decide))
    have hnumeral := Text.numeral?_toDigits hlen
    by_cases hover : ∃ other, TypeName.Overtaken inner other
    · obtain ⟨other, hother⟩ := hover
      have hname : category = other :=
        TypeName.classifyExact_of_overtaken hnumeral (.inl rfl) inner hother
      rw [hname]
      exact .inr ⟨hother.element?, .inr (.inr ⟨other, hother⟩)⟩
    · have harray : category = _ :=
        TypeName.classifyExact_array hnumeral (.inl rfl) inner (not_exists.1 hover)
      rw [harray]
      split
      case isTrue hnil => exact .inr ⟨rfl, .inl hnil⟩
      case isFalse =>
        split
        case isTrue hbytes => exact .inr ⟨rfl, .inr (.inl hbytes)⟩
        case isFalse => exact .inl rfl

/-- What a container is written around is read as its element, if it is read at all. -/
theorem Container.eq_of_element?_classify (hsized : container.Sized)
    (hwhole : TypeName.Whole 0 (Text.stripBlanks text).toList)
    (h : (TypeName.classify (container.before ++ text ++ container.after)).element? = some elem) :
    elem = Text.stripBlanks text := by
  rw [TypeName.classify, toList_container] at h
  rcases Container.element?_cases hsized hwhole with helem | ⟨hnone, -⟩
  · rw [helem, String.ofList_toList] at h
    exact (Option.some.inj h).symm
  · rw [hnone] at h
    cases h

/-- Around a text of some length and without colons, a container is read as one. -/
theorem Container.element?_classify (hsized : container.Sized)
    (hwhole : TypeName.Whole 0 (Text.stripBlanks text).toList)
    (hlong : 2 < (Text.stripBlanks text).toList.length)
    (hcolon : ':' ∉ (Text.stripBlanks text).toList) :
    (TypeName.classify (container.before ++ text ++ container.after)).element? =
      some (Text.stripBlanks text) := by
  rw [TypeName.classify, toList_container]
  rcases Container.element?_cases hsized hwhole with helem | ⟨-, hnil | hbytes | hover⟩
  · rw [helem, String.ofList_toList]
  · rw [List.isEmpty_iff.1 hnil] at hlong
    exact absurd hlong (by decide)
  · have hlength := congrArg List.length hbytes
    rw [TypeName.fold, List.length_map] at hlength
    exact absurd hlong (by rw [hlength]; decide)
  · obtain ⟨other, hother⟩ := hover
    exact absurd hother (TypeName.not_overtaken hcolon)

/-! ## Reading what is spelled -/

theorem toList_compact (text : String) :
    (Text.stripBlanks ("Compact<" ++ text ++ ">")).toList =
      'C' :: 'o' :: 'm' :: 'p' :: 'a' :: 'c' :: 't' :: '<' ::
        ((Text.stripBlanks text).toList ++ ['>']) := by
  rw [Text.toList_stripBlanks_append, Text.toList_stripBlanks_append,
    show (Text.stripBlanks "Compact<").toList =
      ['C', 'o', 'm', 'p', 'a', 'c', 't', '<'] by decide,
    show (Text.stripBlanks ">").toList = ['>'] by decide]
  rfl

theorem toList_tuple (text : String) :
    (Text.stripBlanks ("(" ++ text ++ ")")).toList =
      '(' :: ((Text.stripBlanks text).toList ++ [')']) := by
  rw [Text.toList_stripBlanks_append, Text.toList_stripBlanks_append,
    show (Text.stripBlanks "(").toList = ['('] by decide,
    show (Text.stripBlanks ")").toList = [')'] by decide]
  rfl

theorem whole_intercalate {names : List String}
    (h : ∀ name ∈ names, TypeName.Whole 0 (Text.stripBlanks name).toList) :
    TypeName.Whole 1 (Text.stripBlanks (String.intercalate ", " names)).toList := by
  induction names with
  | nil => exact .nil 1
  | cons name rest ih =>
    have hname : TypeName.Whole 1 (Text.stripBlanks name).toList :=
      (h name List.mem_cons_self).mono (by decide)
    cases rest with
    | nil => exact hname
    | cons second rest =>
      rw [String.intercalate_cons_cons, Text.toList_stripBlanks_append,
        Text.toList_stripBlanks_append, show (Text.stripBlanks ", ").toList = [','] by decide]
      exact (hname.append (.comma (by decide))).append
        (ih fun n hn => h n (List.mem_cons_of_mem _ hn))

/-- What stands in brackets around a text in one piece is in one piece. -/
theorem Container.whole {inner : List Char} (h : TypeName.Whole 0 inner) :
    TypeName.Whole 0 (container.opening ++ (inner ++ container.closing)) := by
  cases container with
  | vector => exact TypeName.Whole.angle ['V', 'e', 'c'] (by decide) h
  | option => exact TypeName.Whole.angle ['O', 'p', 't', 'i', 'o', 'n'] (by decide) h
  | boundedVector =>
    exact TypeName.Whole.angle ['B', 'o', 'u', 'n', 'd', 'e', 'd', 'V', 'e', 'c'] (by decide) h
  | array len =>
    have hdigits : (Nat.toDigits 10 len).all TypeName.isPlain :=
      TypeName.all_isPlain_of_isDigit fun c hc =>
        Text.isDigit_of_mem_toDigits hc
    have hlength : (';' :: Nat.toDigits 10 len).all TypeName.isPlain := by
      rw [List.all_cons, hdigits]
      rfl
    have hbrackets : TypeName.Whole 0 ('[' :: (inner ++ ';' :: Nat.toDigits 10 len ++ [']'])) :=
      ((h.mono (by decide)).append (.of_plain hlength 1)).brackets rfl rfl
    rwa [List.append_assoc] at hbrackets

/-- A spelled text is not empty and in one piece. -/
theorem Spelled.whole (h : registry.Spelled number text) :
    (Text.stripBlanks text).toList ≠ [] ∧ TypeName.Whole 0 (Text.stripBlanks text).toList := by
  induction h with
  | word h =>
    rw [h.1.stripBlanks]
    exact ⟨fun hnil => h.1.1 (String.toList_eq_nil_iff.1 hnil), h.1.whole⟩
  | around haround _ ih =>
    cases haround with
    | newtype _ => exact ih
    | container _ _ =>
      rw [toList_container]
      refine ⟨fun hnil => ?_, Container.whole ih.2⟩
      exact ih.1 (List.append_eq_nil_iff.1 (List.append_eq_nil_iff.1 hnil).2).1
  | compact _ ih =>
    rw [toList_compact]
    refine ⟨List.cons_ne_nil _ _, ?_⟩
    exact TypeName.Whole.angle ['C', 'o', 'm', 'p', 'a', 'c', 't'] (by decide) ih.2
  | @tuple _ parts _ ih =>
    rw [toList_tuple]
    refine ⟨List.cons_ne_nil _ _, (whole_intercalate fun name hname => ?_).brackets rfl rfl⟩
    obtain ⟨part, hpart, rfl⟩ := List.mem_map.1 hname
    exact (ih part hpart).2

/-- A text that is read as a container is spelled by one, or by a composite that goes by
the name of one; its element is spelled by what the container holds. -/
theorem Spelled.element (hregistry : registry.WellFormed) (h : registry.Spelled number text)
    (helem : (TypeName.classify text).element? = some elem) :
    ∃ outer inner spelled, Relation.ReflTransGen registry.TakesName number outer ∧
      registry.Contains outer inner ∧ registry.Spelled inner spelled ∧
      elem = Text.stripBlanks spelled := by
  induction h with
  | word h =>
    rw [h.1.element?_classify] at helem
    cases helem
  | @around outer inner text _ haround h ih =>
    cases haround with
    | @container entry container hentry hcontainer =>
      refine ⟨outer, inner, text, .refl, ⟨entry, container, hentry, hcontainer⟩, h, ?_⟩
      exact Container.eq_of_element?_classify (hregistry.sized hentry hcontainer) h.whole.2 helem
    | newtype htakes =>
      obtain ⟨container, elem, spelled, hchain, hrest⟩ := ih helem
      exact ⟨container, elem, spelled, .head htakes hchain, hrest⟩
  | @compact _ _ text _ _ =>
    rw [TypeName.classify, toList_compact, TypeName.element?_classifyExact_compact] at helem
    cases helem
  | tuple _ _ =>
    rw [TypeName.classify, toList_tuple, TypeName.element?_classifyExact_tuple] at helem
    cases helem

theorem lookupId?_eq_none_of_mem {c : Char} (hc : c ∈ (Text.stripBlanks text).toList)
    (hother : c.isAlphanum = false) : lookupId? (Text.stripBlanks text) = none := by
  cases hid : lookupId? (Text.stripBlanks text) with
  | none => rfl
  | some id =>
    rw [isAlphanum_of_lookupId? hid c hc] at hother
    cases hother

/-- What has brackets is no reference. -/
theorem Container.lookupId?_eq_none (container : Container) (text : String) :
    lookupId? (Text.stripBlanks (container.before ++ text ++ container.after)) = none := by
  obtain ⟨c, hc, hother⟩ := container.exists_bracket
  refine lookupId?_eq_none_of_mem (c := c) ?_ hother
  rw [toList_container]
  exact List.mem_append_left _ hc

/-- A text that is read as a reference to a type is spelled by composites that go by the
name of this type. -/
theorem Spelled.reference_of_lookupId? (h : registry.Spelled number text) {id : UInt32}
    (hid : lookupId? (Text.stripBlanks text) = some id) :
    Relation.ReflTransGen registry.TakesName number id := by
  induction h with
  | word h =>
    rw [h.1.stripBlanks] at hid
    rw [h.2 id hid]
  | @around _ _ text _ haround _ ih =>
    cases haround with
    | @container _ container _ _ =>
      rw [container.lookupId?_eq_none text] at hid
      cases hid
    | newtype htakes => exact .head htakes (ih hid)
  | @compact _ _ text _ _ =>
    have hangle : '<' ∈ (Text.stripBlanks ("Compact<" ++ text ++ ">")).toList := by
      rw [toList_compact]
      simp
    rw [lookupId?_eq_none_of_mem hangle (by decide)] at hid
    cases hid
  | @tuple _ parts _ _ =>
    have hround : '(' ∈ (Text.stripBlanks
        ("(" ++ String.intercalate ", " (parts.map Prod.snd) ++ ")")).toList := by
      rw [toList_tuple]
      exact List.mem_cons_self
    rw [lookupId?_eq_none_of_mem hround (by decide)] at hid
    cases hid

end ScaleCalls.Registry
