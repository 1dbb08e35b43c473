import ScaleCalls.Proofs.Lists
import ScaleCalls.Proofs.Solidity.TypeNames
import ScaleCalls.Proofs.Types.Reachable
import ScaleCalls.Solidity.Lowering

/-!
# Every codec library is found

A unit declares one codec library for each type that its calls reach and that is no
leaf. Identifiers are apart, so the library is found both by its own name and by the
name of its type.

## Main definitions

- `Lowering.Serves` — the libraries that some types need are found in a unit

## Main statements

- `Collection.serves_unitOf` — a unit serves all types that its calls reach
- `function?_of_mem` — a function is found by its name
-/

namespace ScaleCalls

namespace Solidity

/-- Functions that all have different names are found by them. -/
theorem function?_of_mem {unit : SourceUnit} {f : CallFunction}
    (hnodup : (unit.functions.map CallFunction.name).Nodup) (hf : f ∈ unit.functions) :
    unit.function? f.name = some f := by
  refine find?_eq_some_of_unique hf (by simp) fun g hg hname => ?_
  exact List.inj_on_of_nodup_map hnodup hg hf (by simpa using hname)

namespace Lowering

variable {lowering : Lowering} {d : Descriptor} {c : Codec} {name : String}

theorem names_params (lowering : Lowering) (wanted : List (String × String)) :
    (lowering.params wanted).map Param.name = Scope.empty.claimAll (wanted.map Prod.fst) := by
  have hlength : (Scope.empty.claimAll (wanted.map Prod.fst)).length = wanted.length := by simp
  rw [params, map_zipWith_of_left (g := Param.name) (k := id) (fun _ _ => rfl) hlength, List.map_id]

theorem nodup_params (lowering : Lowering) (wanted : List (String × String)) :
    ((lowering.params wanted).map Param.name).Nodup := by
  rw [names_params]
  exact Scope.nodup_claimAll _ _

theorem encodings_params (lowering : Lowering) (wanted : List (String × String)) :
    (lowering.params wanted).map Param.encoding =
      wanted.map fun w => lowering.encoding w.2 := by
  have hlength : (Scope.empty.claimAll (wanted.map Prod.fst)).length = wanted.length := by simp
  rw [params]
  refine map_zipWith_of_right ?_ hlength
  exact fun _ _ => rfl

theorem length_params (lowering : Lowering) (wanted : List (String × String)) :
    (lowering.params wanted).length = wanted.length := by
  simp [params]

theorem names_fields (lowering : Lowering) (fields : List Field) :
    (lowering.fields fields).map Param.name =
      Scope.empty.claimAll (fields.zipIdx.map fieldBase) := by
  rw [Lowering.fields, names_params, List.map_map]
  rfl

theorem nodup_fields (lowering : Lowering) (fields : List Field) :
    ((lowering.fields fields).map Param.name).Nodup :=
  nodup_params lowering _

theorem encodings_fields (lowering : Lowering) (fields : List Field) :
    (lowering.fields fields).map Param.encoding =
      (fields.map Field.handle).map lowering.encoding := by
  rw [Lowering.fields, encodings_params, List.map_map, List.map_map]
  show fields.zipIdx.map ((lowering.encoding ∘ Field.handle) ∘ Prod.fst) = _
  rw [← List.map_map, List.zipIdx_map_fst]

theorem length_fields (lowering : Lowering) (fields : List Field) :
    (lowering.fields fields).length = fields.length := by
  simp [Lowering.fields, length_params]

/-- The constructors of an enum stand at the positions of their variants. -/
theorem getElem?_constructors (lowering : Lowering) {variants : List Variant} {i : Nat}
    {v : Variant} (hv : variants[i]? = some v) :
    ∃ name member, (lowering.constructors variants)[i]? =
      some (lowering.constructor name member v) := by
  have hi : i < variants.length := (List.getElem?_eq_some_iff.1 hv).1
  have hnames : i < ((constructorNames variants).zip (tagMembers variants)).length := by
    simpa [constructorNames, tagMembers] using hi
  rw [constructors, List.getElem?_zipWith, hv, List.getElem?_eq_getElem hnames]
  exact ⟨_, _, rfl⟩

/-! ## Codec libraries -/

/-- The codec libraries that some types need are found in a unit. -/
structure Serves (lowering : Lowering) (unit : SourceUnit) (names : Set String) : Prop where
  consistent : lowering.catalog.Consistent
  closed : lowering.catalog.Closed names
  finds : ∀ name ∈ names, ∀ d, lowering.catalog.get? name = some d → d.isLeaf = false →
    ∃ c, Declaration.codec c ∈ lowering.declarations d ∧
      unit.codec? (lowering.codecName name) = some c ∧ unit.codecFor? name = some c

theorem exists_codec (lowering : Lowering) (hleaf : d.isLeaf = false) :
    ∃ c, Declaration.codec c ∈ lowering.declarations d := by
  unfold Descriptor.isLeaf at hleaf
  unfold declarations
  cases hkind : d.kind with
  | primitive _ | fixedBytes _ | compact _ | unsupported _ =>
    rw [hkind] at hleaf
    cases hleaf
  | record _ | enum _ | option _ | vector _ | boundedVector _ _ | fixedArray _ _ => simp [codec]

theorem eq_of_codec_mem {c' : Codec} (hc : Declaration.codec c ∈ lowering.declarations d)
    (hc' : Declaration.codec c' ∈ lowering.declarations d) : c = c' := by
  unfold declarations at hc hc'
  cases hkind : d.kind <;> simp_all [codec]

theorem name_of_codec_mem (hc : Declaration.codec c ∈ lowering.declarations d) :
    c.name = lowering.codecName d.name ∧ c.typeName = d.name := by
  unfold declarations at hc
  cases hkind : d.kind <;> simp_all [codec]

theorem body_of_record {fields : List Field}
    (h : Declaration.codec c ∈ lowering.declarations ⟨name, .record fields⟩) :
    c.body = .record (lowering.fields fields) := by
  simp only [declarations, codec, List.mem_cons, List.not_mem_nil, or_false, reduceCtorEq,
    false_or, Declaration.codec.injEq] at h
  rw [h]

theorem body_of_enum {variants : List Variant}
    (h : Declaration.codec c ∈ lowering.declarations ⟨name, .enum variants⟩) :
    (∃ tag, c.body = .tagged tag) ∧ c.constructors = lowering.constructors variants := by
  simp only [declarations, codec, List.mem_cons, List.not_mem_nil, or_false, reduceCtorEq,
    false_or, Declaration.codec.injEq] at h
  rw [h]
  exact ⟨⟨_, rfl⟩, rfl⟩

theorem body_of_option {elem : String}
    (h : Declaration.codec c ∈ lowering.declarations ⟨name, .option elem⟩) :
    c.body = .optional (lowering.encoding elem) := by
  simp only [declarations, codec, List.mem_cons, List.not_mem_nil, or_false, reduceCtorEq,
    false_or, Declaration.codec.injEq] at h
  rw [h]

theorem body_of_vector {elem : String}
    (h : Declaration.codec c ∈ lowering.declarations ⟨name, .vector elem⟩) :
    c.body = .sequence (lowering.encoding elem) true none none := by
  simp only [declarations, codec, List.mem_singleton, Declaration.codec.injEq] at h
  rw [h]

theorem body_of_boundedVector {elem : String} {bound : Option Nat}
    (h : Declaration.codec c ∈ lowering.declarations ⟨name, .boundedVector elem bound⟩) :
    c.body = .sequence (lowering.encoding elem) true bound none := by
  simp only [declarations, codec, List.mem_singleton, Declaration.codec.injEq] at h
  rw [h]

theorem body_of_fixedArray {elem : String} {len : Nat}
    (h : Declaration.codec c ∈ lowering.declarations ⟨name, .fixedArray elem len⟩) :
    c.body = .sequence (lowering.encoding elem) false none (some len) := by
  simp only [declarations, codec, List.mem_singleton, Declaration.codec.injEq] at h
  rw [h]

theorem mem_codecs_of_declarations {unit : SourceUnit} {types : List Descriptor}
    (hunit : unit.declarations = types.flatMap lowering.declarations) :
    c ∈ unit.codecs ↔ ∃ d ∈ types, Declaration.codec c ∈ lowering.declarations d := by
  rw [SourceUnit.codecs, hunit, List.mem_filterMap]
  constructor
  · rintro ⟨declaration, hdeclaration, heq⟩
    cases declaration <;> cases heq
    exact List.mem_flatMap.1 hdeclaration
  · exact fun h => ⟨.codec c, List.mem_flatMap.2 h, rfl⟩

/-- Named types with one identifier have one name. -/
theorem eq_of_ident_eq (hdistinct : lowering.names.Distinct) {first second : String}
    (hfirst : (lowering.names.get? first).isSome) (hsecond : (lowering.names.get? second).isSome)
    (h : lowering.ident first = lowering.ident second) : first = second := by
  obtain ⟨ident, hident⟩ := Option.isSome_iff_exists.1 hfirst
  obtain ⟨ident', hident'⟩ := Option.isSome_iff_exists.1 hsecond
  rw [Lowering.ident, Lowering.ident, hident, hident'] at h
  rw [show ident' = ident from h.symm] at hident'
  exact hdistinct.injective hident hident'

/-- In a unit whose types are all named and apart, each library is found. -/
theorem finds_of_declarations {unit : SourceUnit} {types : List Descriptor}
    (hunit : unit.declarations = types.flatMap lowering.declarations)
    (htypes : ∀ d ∈ types, lowering.catalog.get? d.name = some d)
    (hnamed : ∀ d ∈ types, (lowering.names.get? d.name).isSome)
    (hdistinct : lowering.names.Distinct) (hd : d ∈ types)
    (hc : Declaration.codec c ∈ lowering.declarations d) :
    unit.codec? (lowering.codecName d.name) = some c ∧ unit.codecFor? d.name = some c := by
  have hmem : c ∈ unit.codecs := (mem_codecs_of_declarations hunit).2 ⟨d, hd, hc⟩
  -- whatever is found belongs to a type of this name, and there is only one
  have hsame : ∀ c' d', d' ∈ types → Declaration.codec c' ∈ lowering.declarations d' →
      d'.name = d.name → c' = c := by
    intro c' d' hd' hc' hname
    have := htypes d' hd'
    rw [hname, htypes d hd] at this
    cases this
    exact eq_of_codec_mem hc' hc
  obtain ⟨hcname, hctype⟩ := name_of_codec_mem hc
  constructor
  · refine find?_eq_some_of_unique hmem (by simp [hcname]) ?_
    intro c' hc' heq
    obtain ⟨d', hd', hdeclared⟩ := (mem_codecs_of_declarations hunit).1 hc'
    refine hsame c' d' hd' hdeclared ?_
    rw [beq_iff_eq, (name_of_codec_mem hdeclared).1, codecName, codecName, String.append_left_inj]
      at heq
    exact eq_of_ident_eq hdistinct (hnamed d' hd') (hnamed d hd) heq
  · refine find?_eq_some_of_unique hmem (by simp [hctype]) ?_
    intro c' hc' heq
    obtain ⟨d', hd', hdeclared⟩ := (mem_codecs_of_declarations hunit).1 hc'
    refine hsame c' d' hd' hdeclared ?_
    rwa [beq_iff_eq, (name_of_codec_mem hdeclared).2] at heq

end Lowering

end Solidity

namespace Collection

open Solidity

variable {collection : Collection} {calls : List ResolvedCall}

/-- The lowering by which a unit is made. -/
def lowering (collection : Collection) (codecLibrary group : String)
    (calls : List ResolvedCall) : Lowering :=
  ⟨collection.catalog, (TypeNames.reserving [libraryName group, codecLibrary]).nameAll
    collection.catalog (collection.declaredTypes calls)⟩

/-- The names that the arguments of some calls reach. -/
def reached (collection : Collection) (calls : List ResolvedCall) : Set String :=
  {name | ∃ call ∈ calls, ∃ arg ∈ call.args, collection.catalog.Reaches arg.handle name}

/-- A unit serves all types that its calls reach. -/
theorem serves_unitOf (hc : collection.catalog.Consistent) (codecLibrary group : String)
    (calls : List ResolvedCall) (skipped : List SkipNote) :
    (collection.lowering codecLibrary group calls).Serves
      (collection.unitOf codecLibrary group calls skipped) (collection.reached calls) where
  consistent := hc
  closed := by
    rintro name ⟨call, hcall, arg, harg, hreaches⟩ child hrefers
    exact ⟨call, hcall, arg, harg, hreaches.tail hrefers⟩
  finds := by
    rintro name ⟨call, hcall, arg, harg, hreaches⟩ d hd hleaf
    have hd' : d ∈ collection.declaredTypes calls :=
      Catalog.mem_reachable hc (List.mem_flatMap.2 ⟨call, hcall, List.mem_map_of_mem harg⟩)
        hreaches hd hleaf
    obtain ⟨c, hdeclared⟩ := Lowering.exists_codec (collection.lowering codecLibrary group calls)
      hleaf
    have hname : d.name = name := hc.name_of_get? hd
    subst hname
    exact ⟨c, hdeclared, Lowering.finds_of_declarations rfl
      (fun e he => (Catalog.get?_of_mem_reachable hc he).1)
      (fun e he => TypeNames.isSome_get?_nameAll he _)
      (TypeNames.distinct_nameAll _ _ _) hd' hdeclared⟩

theorem functions_unitOf (collection : Collection) (codecLibrary group : String)
    (calls : List ResolvedCall) (skipped : List SkipNote) :
    List.Forall₂ (fun f call => ∃ name, f =
        (collection.lowering codecLibrary group calls).function name call)
      (collection.unitOf codecLibrary group calls skipped).functions calls :=
  forall₂_zipWith _ (by simp)

theorem names_functions_unitOf (collection : Collection) (codecLibrary group : String)
    (calls : List ResolvedCall) (skipped : List SkipNote) :
    (collection.unitOf codecLibrary group calls skipped).functions.map CallFunction.name =
      Scope.empty.claimAll (calls.map ResolvedCall.functionBase) := by
  have hlength : (Scope.empty.claimAll (calls.map ResolvedCall.functionBase)).length =
      calls.length := by simp
  rw [unitOf, map_zipWith_of_left (g := CallFunction.name) (k := id) (fun _ _ => rfl) hlength,
    List.map_id]

theorem nodup_functions_unitOf (collection : Collection) (codecLibrary group : String)
    (calls : List ResolvedCall) (skipped : List SkipNote) :
    ((collection.unitOf codecLibrary group calls skipped).functions.map
      CallFunction.name).Nodup := by
  rw [names_functions_unitOf]
  exact Scope.nodup_claimAll _ _

theorem function?_unitOf {codecLibrary group : String} {skipped : List SkipNote}
    {f : CallFunction} (hf : f ∈ (collection.unitOf codecLibrary group calls skipped).functions) :
    (collection.unitOf codecLibrary group calls skipped).function? f.name = some f :=
  function?_of_mem (nodup_functions_unitOf collection codecLibrary group calls skipped) hf

end Collection

end ScaleCalls
