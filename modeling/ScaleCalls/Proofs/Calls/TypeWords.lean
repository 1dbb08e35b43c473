import ScaleCalls.Proofs.Calls.Identifiers

/-!
# Names that are words for types

The words for elementary types have small letters and digits only. A name with a capital letter
or an underscore is none of them, so no library, function, type or member of a tag enum is called
like one, and no suffix makes one. In camel case a name can be such a word: those without a size
are reserved, and those with a size are not. So a parameter, a member of a struct or a
constructor is called like a type exactly if the metadata has a name of this form for it.

## Main definitions

- `Ty.isElementary`, `TypeWord` — the elementary types and the words for them
- `TypeKind.memberNames` — the names of fields and variants in a type

## Main statements

- `TypeWord.mem_claimAll_iff` — a scope gives out a word for a type only where it is claimed
- `TypeWord.mem_localNames_iff` — which types have such a name in their declarations
- `Collection.typeWord_mem_localNames_iff` — which names of a unit are words for types
-/

namespace ScaleCalls

/-- The names that a type has inside: those of its fields, or of its variants and theirs. -/
def TypeKind.memberNames : TypeKind → List String
  | record fields => fields.filterMap Field.name
  | enum variants => variants.flatMap fun v => v.name :: v.fields.filterMap Field.name
  | _ => []

theorem TypeKind.isLeaf_of_mem_memberNames {kind : TypeKind} {name : String}
    (h : name ∈ kind.memberNames) : kind.isLeaf = false := by
  cases kind with
  | record _ | enum _ => rfl
  | _ => cases h

namespace Solidity

/-- The types that are written as one word of the language. -/
def Ty.isElementary : Ty → Bool
  | bool | bytes | string => true
  | uint bits | int bits => 8 ≤ bits && bits ≤ 256 && bits % 8 == 0
  | fixedBytes len => 1 ≤ len && len ≤ 32
  | named _ | array _ _ => false

/-- The words for elementary types. -/
def TypeWord (word : String) : Prop := ∃ ty : Ty, ty.isElementary ∧ ty.text = word

/-- What words for types start with. All of these words are reserved. -/
def typeHeads : List String := ["bool", "bytes", "string", "uint", "int"]

variable {word name : String}

theorem isReserved_of_mem_typeHeads (h : name ∈ typeHeads) : isReserved name := by
  have hall : typeHeads.all isReserved := by decide +kernel
  exact List.all_eq_true.1 hall name h

namespace TypeWord

/-- A word for a type is a reserved one, with the size of the type behind it if it has one. -/
theorem exists_head (h : TypeWord word) :
    ∃ head ∈ typeHeads, ∃ size : List Char,
      word.toList = head.toList ++ size ∧ ∀ c ∈ size, c.isDigit := by
  have hsized (head : String) (n : Nat) :
      ∃ size : List Char, s!"{head}{n}".toList = head.toList ++ size ∧ ∀ c ∈ size, c.isDigit :=
    ⟨Nat.toDigits 10 n, by simp [toString], fun _ => Text.isDigit_of_mem_toDigits⟩
  obtain ⟨ty, helementary, rfl⟩ := h
  cases ty with
  | bool => exact ⟨"bool", by decide, [], by simp [Ty.text]⟩
  | bytes => exact ⟨"bytes", by decide, [], by simp [Ty.text]⟩
  | string => exact ⟨"string", by decide, [], by simp [Ty.text]⟩
  | uint bits => exact ⟨"uint", by decide, hsized _ bits⟩
  | int bits => exact ⟨"int", by decide, hsized _ bits⟩
  | fixedBytes len => exact ⟨"bytes", by decide, hsized _ len⟩
  | named _ | array _ _ => cases helementary

theorem not_marked (h : TypeWord word) : ¬ Marked word := by
  rintro ⟨c, hc, hlower, hdigit⟩
  obtain ⟨head, hhead, size, hword, hsize⟩ := h.exists_head
  rw [hword, List.mem_append] at hc
  obtain hc | hc := hc
  · exact hlower (isLower_of_isReserved (isReserved_of_mem_typeHeads hhead) c hc)
  · exact hdigit (hsize c hc)

theorem ne_of_marked (h : TypeWord word) (hname : Marked name) : word ≠ name := by
  rintro rfl
  exact h.not_marked hname

/-- A name with another first letter than all of them is no word for a type. -/
theorem ne_of_first (h : TypeWord word)
    (hname : ∀ head ∈ typeHeads, head.toList.head? ≠ name.toList.head?) : word ≠ name := by
  rintro rfl
  obtain ⟨head, hhead, size, hword, -⟩ := h.exists_head
  have hletter : head.toList.head?.isSome := by
    have hall : typeHeads.all fun head => head.toList.head?.isSome := by decide +kernel
    exact List.all_eq_true.1 hall head hhead
  refine hname head hhead ?_
  rw [hword, List.head?_append, Option.or_of_isSome hletter]

/-- A scope never makes a word for a type by a suffix. -/
theorem mem_claimAll_iff (h : TypeWord word) {scope : Scope} (hfree : ¬ scope.isTaken word)
    (bases : List String) : word ∈ scope.claimAll bases ↔ word ∈ bases :=
  Scope.mem_claimAll_iff (fun base n => (h.ne_of_marked (marked_candidate base n)).symm) hfree

/-! ## Names in declarations -/

variable {lowering : Lowering} {fields : List Field} {variants : List Variant}

theorem mem_fields_iff (h : TypeWord word) : word ∈ (lowering.fields fields).map Param.name ↔
    ∃ name ∈ fields.filterMap Field.name, camel name = word := by
  rw [Lowering.names_fields, h.mem_claimAll_iff (Scope.not_isTaken_empty word)]
  constructor
  · intro hword
    obtain ⟨⟨field, i⟩, hfield, hbase⟩ := List.mem_map.1 hword
    cases hname : field.name with
    | none =>
      rw [Lowering.fieldBase, hname] at hbase
      exact absurd hbase.symm (h.ne_of_marked (marked_positional i))
    | some name =>
      rw [Lowering.fieldBase, hname] at hbase
      exact ⟨name, List.mem_filterMap.2 ⟨field, List.fst_mem_of_mem_zipIdx hfield, hname⟩, hbase⟩
  · rintro ⟨name, hname, rfl⟩
    obtain ⟨field, hfield, hname⟩ := List.mem_filterMap.1 hname
    obtain ⟨i, hi⟩ := List.mem_iff_getElem?.1 hfield
    refine List.mem_map.2 ⟨(field, i), List.mk_mem_zipIdx_iff_getElem?.2 hi, ?_⟩
    rw [Lowering.fieldBase, hname]

theorem mem_constructorNames_iff (h : TypeWord word) :
    word ∈ Lowering.constructorNames variants ↔ ∃ v ∈ variants, camel v.name = word := by
  have hfree : ¬ (Scope.reserving ["encode"]).isTaken word := by
    rw [Scope.isTaken_reserving, List.mem_singleton]
    exact h.ne_of_first (by decide +kernel)
  rw [Lowering.constructorNames, h.mem_claimAll_iff hfree, List.mem_map]

/-- Of the names in the declarations of a type only those from the metadata can be words for
types. -/
theorem mem_localNames_iff (h : TypeWord word) (lowering : Lowering) (d : Descriptor) :
    word ∈ (lowering.declarations d).flatMap Declaration.localNames ↔
      ∃ name ∈ d.kind.memberNames, camel name = word := by
  rw [Lowering.mem_localNames_iff]
  cases d.kind with
  | record fields =>
    have hempty : word ≠ "_empty" := h.ne_of_first (by decide +kernel)
    simp only [h.mem_fields_iff, hempty, and_false, or_false, TypeKind.memberNames]
  | enum variants =>
    have htag : word ≠ "tag" := h.ne_of_first (by decide +kernel)
    have hpayload : word ≠ "payload" := h.ne_of_first (by decide +kernel)
    simp only [htag, hpayload, h.mem_constructorNames_iff, h.mem_fields_iff, false_or,
      TypeKind.memberNames, List.mem_flatMap, List.mem_cons]
    constructor
    · rintro (⟨v, hv, hname⟩ | ⟨v, hv, name, hfield, hname⟩)
      · exact ⟨v.name, ⟨v, hv, .inl rfl⟩, hname⟩
      · exact ⟨name, ⟨v, hv, .inr hfield⟩, hname⟩
    · rintro ⟨name, ⟨v, hv, rfl | hfield⟩, hname⟩
      · exact .inl ⟨v, hv, hname⟩
      · exact .inr ⟨v, hv, name, hfield, hname⟩
  | option elem =>
    have hisSome : word ≠ "isSome" := h.ne_of_marked ⟨'S', by decide +kernel⟩
    have hvalue : word ≠ "value" := h.ne_of_first (by decide +kernel)
    simp [hisSome, hvalue, TypeKind.memberNames]
  | _ => simp [TypeKind.memberNames]

end TypeWord

end Solidity

namespace Collection

open Solidity

variable {collection : Collection} {calls : List ResolvedCall} {skipped : List SkipNote}
  {codecLibrary group word : String}

/-- The names of parameters, members and constructors that are words for types come from the
arguments of the calls and from the types that these reach. -/
theorem mem_localNames_unitOf_of_typeWord (hc : collection.catalog.Consistent)
    (hword : TypeWord word) :
    word ∈ (collection.unitOf codecLibrary group calls skipped).localNames ↔
      (∃ call ∈ calls, ∃ arg ∈ call.args, camel arg.name = word) ∨
        ∃ typeName ∈ collection.reached calls,
          ∃ name ∈ (collection.catalog.kindOf typeName).memberNames, camel name = word := by
  rw [mem_localNames_unitOf]
  refine or_congr ?_ ?_
  · simp only [hword.mem_claimAll_iff (Scope.not_isTaken_empty word), List.mem_map]
  · simp only [hword.mem_localNames_iff]
    constructor
    · rintro ⟨d, hd, hname⟩
      refine ⟨d.name, reached_of_mem_declaredTypes hc hd, ?_⟩
      rwa [Catalog.kindOf_of_get? (get?_of_mem_declaredTypes hc hd).1]
    · rintro ⟨typeName, hreached, name, hname, hcamel⟩
      obtain ⟨d, hd, rfl⟩ := List.mem_map.1 ((mem_declaredTypes_iff hc).2
        ⟨hreached, TypeKind.isLeaf_of_mem_memberNames hname⟩)
      rw [Catalog.kindOf_of_get? (get?_of_mem_declaredTypes hc hd).1] at hname
      exact ⟨d, hd, name, hname, hcamel⟩

/-- In the unit of a group no library, function, struct, codec library, tag enum or member of a
tag enum is called like an elementary type. A parameter, member of a struct or constructor is
called like one exactly if an argument of a call of the group, or a field or variant of a type
that these calls reach, has this word as its name in camel case; and this is never one of the
words that are reserved. -/
theorem typeWord_mem_localNames_iff (snapshot : Snapshot) (requested : List String)
    (policy : Policy) (codecLibrary group : String) (unit : SourceUnit)
    (h : (ofSnapshot snapshot requested).unit policy codecLibrary group = .ok unit) :
    ∀ ty : Ty, ty.isElementary →
      ty.text ≠ unit.library ∧ ty.text ∉ unit.functions.map CallFunction.name ∧
      ty.text ∉ unit.declarations.map Declaration.name ∧ ty.text ∉ unit.tagMembers ∧
      (isReserved ty.text → ty.text ∉ unit.localNames) ∧
      (ty.text ∈ unit.localNames ↔
        (∃ call ∈ (ofSnapshot snapshot requested).supportedCalls group, ∃ arg ∈ call.args,
          camel arg.name = ty.text) ∨
        ∃ typeName ∈ (ofSnapshot snapshot requested).reached
            ((ofSnapshot snapshot requested).supportedCalls group),
          ∃ name ∈ ((ofSnapshot snapshot requested).catalog.kindOf typeName).memberNames,
            camel name = ty.text) := by
  obtain ⟨skipped, rfl⟩ := exists_unitOf h
  intro ty helementary
  have hword : TypeWord ty.text := ⟨ty, helementary, rfl⟩
  refine ⟨hword.ne_of_marked (isTypeName_libraryName group).marked, ?_, ?_, ?_, ?_,
    mem_localNames_unitOf_of_typeWord (consistent_ofSnapshot snapshot requested) hword⟩
  · exact fun hname => hword.not_marked (usable_of_mem_functions hname).2
  · intro hname
    obtain ⟨x, hx, hname⟩ := List.mem_map.1 hname
    exact hword.ne_of_marked (isTypeName_of_declared hx).marked hname.symm
  · intro hname
    obtain ⟨variants, hmember⟩ := exists_variants_of_mem_tagMembers hname
    exact hword.not_marked (Lowering.marked_of_mem_tagMembers hmember)
  · exact fun hreserved hname =>
      (usable_iff.1 (usable_of_mem_localNames hname)).2 hreserved

/-- A snapshot in which an argument, a field and a variant are called like types. -/
def sizedSnapshot : Snapshot where
  chain := ""
  specName := ""
  specVersion := 0
  pallets := [⟨"Demo", 7, [⟨"set", 0, [⟨"uint8", "u8"⟩, ⟨"a", "Foo"⟩, ⟨"b", "Bar"⟩]⟩]⟩]
  types := [⟨0, "Foo", [], some (.object [("_struct", .object [("bytes32", .string "u8")])])⟩,
    ⟨1, "Bar", [], some (.object [("_enum", .array [.string "Int256"])])⟩]

theorem typeWord_mem_localNames_sized : ∃ unit,
    (ofSnapshot sizedSnapshot ["Demo"]).unit .skip "ScaleCodec" "Demo" = .ok unit ∧
      unit.localNames =
        ["uint8", "a", "b", "bytes32", "bytes32", "tag", "payload", "int256"] ∧
      (Ty.uint 8).isElementary ∧ (Ty.uint 8).text ∈ unit.localNames := by
  have hunit := unit_skip (ofSnapshot sizedSnapshot ["Demo"]) "ScaleCodec" "Demo"
  obtain ⟨-, -, -, -, -, hiff⟩ := typeWord_mem_localNames_iff sizedSnapshot ["Demo"] .skip
    "ScaleCodec" "Demo" _ hunit (.uint 8) (by decide)
  have hargs : (((ofSnapshot sizedSnapshot ["Demo"]).supportedCalls "Demo").map fun call =>
      call.args.map fun arg => camel arg.name) = [["uint8", "a", "b"]] := by decide +kernel
  refine ⟨_, hunit, by decide +kernel, by decide, hiff.2 (.inl ?_)⟩
  obtain ⟨call, hcall, hnames⟩ := List.mem_map.1 (hargs ▸ List.mem_singleton_self _)
  obtain ⟨arg, harg, hname⟩ := List.mem_map.1 (hnames ▸ List.mem_cons_self)
  exact ⟨call, hcall, arg, harg, hname⟩

end Collection

end ScaleCalls
