import Mathlib.Logic.Relation
import ScaleCalls.Registry.Names

/-!
# Containers in a registry

A sequence, an array, an option and a bounded vector hold the type of their elements. A
composite with one field holds nothing: it takes over the name of its field. Seen from a
type, these two kinds of links form a chain, as every type has at most one of them.

## Main definitions

- `Registry.Container` — the containers, and what is written around an element
- `Registry.Contains`, `Registry.TakesName` — the two kinds of links
- `Registry.Wraps` — a link of either kind

## Main statements

- `rule_of_container?`, `rule_of_newtype?` — how the two kinds of types are named
- `named_rule` — all the ways in which a type can be named
- `Wraps.functional` — there is only one way from a type
-/

namespace ScaleCalls.Registry

/-- The containers of the type names. -/
inductive Container where
  | vector
  | array (len : Nat)
  | option
  | boundedVector
  deriving Repr, DecidableEq

/-- What is written in front of the element. -/
def Container.before : Container → String
  | vector => "Vec<"
  | array _ => "["
  | option => "Option<"
  | boundedVector => "BoundedVec<"

/-- What is written behind the element. -/
def Container.after : Container → String
  | array len => s!"; {len}]"
  | vector | option | boundedVector => ">"

/-- The container that the path of a type tells. -/
def Entry.nominal? (entry : Entry) : Option (Container × UInt32) :=
  match entry.path.getLast?, entry.params.head?.bind Param.type with
  | some segment, some inner =>
    if segment = "Option" then some (.option, inner)
    else if segment = "BoundedVec" ∨ segment = "WeakBoundedVec" then some (.boundedVector, inner)
    else none
  | _, _ => none

/-- The container that a type is, and the type of its elements. -/
def Entry.container? (entry : Entry) : Option (Container × UInt32) :=
  match entry.definition with
  | .sequence elem => some (.vector, elem)
  | .array len elem => some (.array len, elem)
  | .composite _ | .variant _ => entry.nominal?
  | .tuple _ | .scalar _ | .compact _ | .bitSequence => none

/-- The type whose name a composite takes over. -/
def Entry.newtype? (entry : Entry) : Option UInt32 :=
  match entry.container?, entry.path.getLast? with
  | none, some segment =>
    if TypeName.classify segment = .unsupported then entry.wrapped? else none
  | _, _ => none

/-- The outer type is a container of the inner one. -/
def Contains (registry : Registry) (outer inner : UInt32) : Prop :=
  ∃ entry container, registry.get? outer = some entry ∧ entry.container? = some (container, inner)

/-- The outer type is a composite that goes by the name of the inner one. -/
def TakesName (registry : Registry) (outer inner : UInt32) : Prop :=
  ∃ entry, registry.get? outer = some entry ∧ entry.newtype? = some inner

/-- The outer type is named around the inner one, as a container or as a composite. -/
def Wraps (registry : Registry) (outer inner : UInt32) : Prop :=
  registry.Contains outer inner ∨ registry.TakesName outer inner

variable {registry : Registry} {entry : Entry} {number outer inner : UInt32}
  {container : Container} {before after : String} {inners : List UInt32}

/-! ## How they are named -/

/-- A type with a path is named as a container, after its position or by its path. -/
theorem nominalRule_cases (number : UInt32) (entry : Entry) :
    (∃ container inner, entry.nominal? = some (container, inner) ∧
      nominalRule number entry = .around container.before [inner] container.after) ∨
    (entry.nominal? = none ∧ entry.path.getLast? = none ∧
      nominalRule number entry = .own [] s!"Composite{number.toNat}") ∨
    ∃ segment, entry.nominal? = none ∧ entry.path.getLast? = some segment ∧
      nominalRule number entry = pathRule number entry segment := by
  unfold nominalRule Entry.nominal?
  cases hsegment : entry.path.getLast? with
  | none => exact .inr (.inl ⟨rfl, rfl, rfl⟩)
  | some segment =>
    cases hparam : entry.params.head?.bind Param.type with
    | none => exact .inr (.inr ⟨segment, rfl, rfl, rfl⟩)
    | some inner =>
      by_cases hoption : segment = "Option"
      · refine .inl ⟨.option, inner, ?_, ?_⟩
        · simp only [if_pos hoption]
        · simp only [if_pos hoption]
          rfl
      · by_cases hbounded : segment = "BoundedVec" ∨ segment = "WeakBoundedVec"
        · refine .inl ⟨.boundedVector, inner, ?_, ?_⟩
          · simp only [if_neg hoption, if_pos hbounded]
          · simp only [if_neg hoption, if_pos hbounded]
            rfl
        · refine .inr (.inr ⟨segment, ?_, rfl, ?_⟩)
          · simp only [if_neg hoption, if_neg hbounded]
          · simp only [if_neg hoption, if_neg hbounded]

theorem rule_of_container? (h : entry.container? = some (container, inner)) :
    rule number entry = .around container.before [inner] container.after := by
  have hnominal (heq : entry.nominal? = some (container, inner)) :
      nominalRule number entry = .around container.before [inner] container.after := by
    obtain ⟨c, i, hsome, hrule⟩ | ⟨hnone, -⟩ | ⟨segment, hnone, -⟩ := nominalRule_cases number entry
    · rw [heq] at hsome
      cases hsome
      exact hrule
    · rw [heq] at hnone
      cases hnone
    · rw [heq] at hnone
      cases hnone
  unfold Entry.container? at h
  unfold rule
  cases hdefinition : entry.definition with
  | sequence elem | array len elem =>
    rw [hdefinition] at h
    cases h
    rfl
  | composite fields | variant variants =>
    rw [hdefinition] at h
    exact hnominal h
  | tuple elems | scalar kind | compact inner | bitSequence =>
    rw [hdefinition] at h
    cases h

theorem definition_of_array {len : Nat} (h : entry.container? = some (.array len, inner)) :
    entry.definition = .array len inner := by
  have hnominal : entry.nominal? ≠ some (.array len, inner) := by
    intro hsome
    unfold Entry.nominal? at hsome
    split at hsome
    · split at hsome
      · cases hsome
      · split at hsome <;> cases hsome
    · cases hsome
  unfold Entry.container? at h
  split at h
  · cases h
  · rename_i heq
    cases h
    exact heq
  · exact absurd h hnominal
  · exact absurd h hnominal
  all_goals cases h

theorem pathRule_of_segment {segment : String} (h : TypeName.classify segment = .unsupported) :
    pathRule number entry segment =
      match entry.wrapped? with
      | some inner => .around "" [inner] ""
      | none => .own [segment, joinPath entry.path] s!"{joinPath entry.path}{number.toNat}" := by
  unfold pathRule
  rewrite [if_neg (not_not_intro h)]
  cases entry.wrapped? <;> rfl

theorem exists_of_newtype? (h : entry.newtype? = some inner) :
    entry.container? = none ∧ entry.wrapped? = some inner ∧
      ∃ segment, entry.path.getLast? = some segment ∧
        TypeName.classify segment = .unsupported := by
  unfold Entry.newtype? at h
  split at h
  · rename_i hcontainer hsegment
    split at h
    · rename_i hclassify
      exact ⟨hcontainer, h, _, hsegment, hclassify⟩
    · cases h
  · cases h

theorem composite_of_wrapped? (h : entry.wrapped? = some inner) :
    ∃ field, entry.definition = .composite [field] ∧ field.type = inner := by
  unfold Entry.wrapped? at h
  split at h
  · rename_i field heq
    exact ⟨field, heq, Option.some.inj h⟩
  · cases h

theorem rule_of_newtype? (h : entry.newtype? = some inner) :
    rule number entry = .around "" [inner] "" := by
  obtain ⟨hcontainer, hwrapped, segment, hsegment, hclassify⟩ := exists_of_newtype? h
  obtain ⟨field, hdefinition, -⟩ := composite_of_wrapped? hwrapped
  have hnominal : entry.nominal? = none := by
    rw [← hcontainer, Entry.container?, hdefinition]
  have hrule : rule number entry = nominalRule number entry := by
    rw [rule, hdefinition]
  rw [hrule]
  obtain ⟨c, i, hsome, -⟩ | ⟨-, hnone, -⟩ | ⟨other, -, hother, hpath⟩ :=
    nominalRule_cases number entry
  · rw [hnominal] at hsome
    cases hsome
  · rw [hsegment] at hnone
    cases hnone
  · rw [hsegment] at hother
    cases hother
    rw [hpath, pathRule_of_segment hclassify, hwrapped]

/-- How a type of this number can be named. -/
inductive Named (number : UInt32) (entry : Entry) : NameRule → Prop where
  | container {container : Container} {inner : UInt32}
      (h : entry.container? = some (container, inner)) :
      Named number entry (.around container.before [inner] container.after)
  | newtype {inner : UInt32} (h : entry.newtype? = some inner) :
      Named number entry (.around "" [inner] "")
  | compact (inner : UInt32) : Named number entry (.around "Compact<" [inner] ">")
  | tuple (elems : List UInt32) : Named number entry (.around "(" elems ")")
  | scalar (kind : Scalar) : Named number entry (.fixed kind.word)
  | bits : Named number entry (.fixed "BitVec")
  | segment {segment : String} (h : entry.path.getLast? = some segment) :
      Named number entry (.fixed segment)
  | path {segment : String} (h : entry.path.getLast? = some segment) :
      Named number entry
        (.own [segment, joinPath entry.path] s!"{joinPath entry.path}{number.toNat}")
  | position : Named number entry (.own [] s!"Composite{number.toNat}")

theorem named_nominalRule (number : UInt32) (hcontainer : entry.container? = entry.nominal?) :
    Named number entry (nominalRule number entry) := by
  obtain ⟨c, i, hsome, hrule⟩ | ⟨-, -, hrule⟩ | ⟨segment, hnone, hsegment, hrule⟩ :=
    nominalRule_cases number entry
  · rw [hrule]
    exact .container (hcontainer.trans hsome)
  · rw [hrule]
    exact .position
  · by_cases hclassify : TypeName.classify segment = .unsupported
    · cases hwrapped : entry.wrapped? with
      | none =>
        rw [hrule, pathRule_of_segment hclassify, hwrapped]
        exact .path hsegment
      | some inner =>
        rw [hrule, pathRule_of_segment hclassify, hwrapped]
        refine .newtype ?_
        rw [Entry.newtype?, hcontainer, hnone, hsegment]
        simp only [if_pos hclassify, hwrapped]
    · rw [hrule, pathRule, if_pos hclassify]
      exact .segment hsegment

theorem named_rule (number : UInt32) (entry : Entry) : Named number entry (rule number entry) := by
  cases hdefinition : entry.definition with
  | composite fields | variant variants =>
    have hrule : rule number entry = nominalRule number entry := by rw [rule, hdefinition]
    rw [hrule]
    exact named_nominalRule number (by rw [Entry.container?, hdefinition])
  | sequence elem =>
    have hcontainer : entry.container? = some (.vector, elem) := by
      rw [Entry.container?, hdefinition]
    rw [rule_of_container? hcontainer]
    exact .container hcontainer
  | array len elem =>
    have hcontainer : entry.container? = some (.array len, elem) := by
      rw [Entry.container?, hdefinition]
    rw [rule_of_container? hcontainer]
    exact .container hcontainer
  | tuple elems =>
    rw [rule, hdefinition]
    exact .tuple elems
  | scalar kind =>
    rw [rule, hdefinition]
    exact .scalar kind
  | compact inner =>
    rw [rule, hdefinition]
    exact .compact inner
  | bitSequence =>
    rw [rule, hdefinition]
    exact .bits

/-! ## The chain from a type -/

theorem not_contains_of_takesName (h : registry.TakesName outer inner) {other : UInt32} :
    ¬ registry.Contains outer other := by
  rintro ⟨entry, container, hentry, hcontainer⟩
  obtain ⟨same, hsame, hnewtype⟩ := h
  rw [hentry] at hsame
  cases hsame
  rw [(exists_of_newtype? hnewtype).1] at hcontainer
  cases hcontainer

/-- There is at most one link from a type. -/
theorem Wraps.functional {other : UInt32} (h : registry.Wraps outer inner)
    (hother : registry.Wraps outer other) : inner = other := by
  obtain ⟨entry, container, hentry, hcontainer⟩ | htakes := h
  · obtain ⟨same, container', hsame, hcontainer'⟩ | htakes := hother
    · rw [hentry] at hsame
      cases hsame
      rw [hcontainer] at hcontainer'
      cases hcontainer'
      rfl
    · exact absurd ⟨entry, container, hentry, hcontainer⟩ (not_contains_of_takesName htakes)
  · obtain hcontains | ⟨same, hsame, hnewtype'⟩ := hother
    · exact absurd hcontains (not_contains_of_takesName htakes)
    · obtain ⟨entry, hentry, hnewtype⟩ := htakes
      rw [hentry] at hsame
      cases hsame
      rw [hnewtype] at hnewtype'
      exact Option.some.inj hnewtype'

end ScaleCalls.Registry
