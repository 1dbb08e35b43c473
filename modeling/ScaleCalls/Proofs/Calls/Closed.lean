import ScaleCalls.Proofs.Calls.Policy
import ScaleCalls.Proofs.Solidity.Declarations

/-!
# Emitted units are closed

The unit of a group declares the types that the calls of the group reach, each once, and
nothing else. So whatever a function or a codec library mentions belongs to a type that
the search has listed, and is declared with it.

## Main statements

- `Collection.closed_unitOf` — a unit for some calls is closed
- `Collection.unit_closed_and_faults` — the units of a snapshot are, and evaluation in them
  fails only because of values
-/

namespace ScaleCalls.Collection

open Solidity

variable {collection : Collection} {calls : List ResolvedCall} {skipped : List SkipNote}
  {codecLibrary group : String} {d : Descriptor}

/-! ## The types of a unit -/

theorem get?_of_mem_declaredTypes (hc : collection.catalog.Consistent)
    (h : d ∈ collection.declaredTypes calls) :
    collection.catalog.get? d.name = some d ∧ d.isLeaf = false :=
  Catalog.get?_of_mem_reachable hc h

/-- The types that are declared are those that the calls reach and that are no leaves. -/
theorem mem_declaredTypes_iff (hc : collection.catalog.Consistent) {name : String} :
    name ∈ (collection.declaredTypes calls).map Descriptor.name ↔
      name ∈ collection.reached calls ∧ (collection.catalog.kindOf name).isLeaf = false := by
  constructor
  · intro h
    obtain ⟨d, hd, rfl⟩ := List.mem_map.1 h
    obtain ⟨hget, hleaf⟩ := get?_of_mem_declaredTypes hc hd
    obtain ⟨root, hroot, hreaches⟩ := Catalog.reaches_of_mem_reachable hc hd
    obtain ⟨call, hcall, hroot⟩ := List.mem_flatMap.1 hroot
    obtain ⟨arg, harg, rfl⟩ := List.mem_map.1 hroot
    refine ⟨⟨call, hcall, arg, harg, hreaches⟩, ?_⟩
    rw [Catalog.kindOf_of_get? hget]
    exact hleaf
  · rintro ⟨⟨call, hcall, arg, harg, hreaches⟩, hleaf⟩
    cases hget : collection.catalog.get? name with
    | none => simp [Catalog.kindOf, hget, TypeKind.isLeaf] at hleaf
    | some d =>
      rw [Catalog.kindOf_of_get? hget] at hleaf
      obtain rfl := hc.name_of_get? hget
      exact List.mem_map_of_mem (Catalog.mem_reachable hc
        (List.mem_flatMap.2 ⟨call, hcall, List.mem_map_of_mem harg⟩) hreaches hget hleaf)

theorem reached_of_mem_declaredTypes (hc : collection.catalog.Consistent)
    (h : d ∈ collection.declaredTypes calls) : d.name ∈ collection.reached calls :=
  ((mem_declaredTypes_iff hc).1 (List.mem_map_of_mem h)).1

theorem reached_of_mem_children (hc : collection.catalog.Consistent)
    (h : d ∈ collection.declaredTypes calls) {child : String} (hchild : child ∈ d.children) :
    child ∈ collection.reached calls := by
  obtain ⟨call, hcall, arg, harg, hreaches⟩ := reached_of_mem_declaredTypes hc h
  exact ⟨call, hcall, arg, harg,
    hreaches.tail ⟨d, (get?_of_mem_declaredTypes hc h).1, hchild⟩⟩

theorem mem_declarations_unitOf {declaration : Declaration} :
    declaration ∈ (collection.unitOf codecLibrary group calls skipped).declarations ↔
      ∃ d ∈ collection.declaredTypes calls,
        declaration ∈ (collection.lowering codecLibrary group calls).declarations d :=
  List.mem_flatMap

theorem mem_codecs_unitOf {codec : Codec} :
    codec ∈ (collection.unitOf codecLibrary group calls skipped).codecs ↔
      ∃ d ∈ collection.declaredTypes calls, Declaration.codec codec ∈
        (collection.lowering codecLibrary group calls).declarations d :=
  Lowering.mem_codecs_of_declarations rfl

theorem typeNames_unitOf (hc : collection.catalog.Consistent) :
    (collection.unitOf codecLibrary group calls skipped).codecs.map Codec.typeName =
      (collection.declaredTypes calls).map Descriptor.name := by
  have hall : ∀ types : List Descriptor, (∀ d ∈ types, d.isLeaf = false) →
      ((types.flatMap (collection.lowering codecLibrary group calls).declarations).filterMap
        Declaration.codec?).map Codec.typeName = types.map Descriptor.name := by
    intro types htypes
    induction types with
    | nil => rfl
    | cons d types ih =>
      obtain ⟨c, hcodec, hname⟩ := Lowering.codecs_declarations
        (collection.lowering codecLibrary group calls) (htypes d List.mem_cons_self)
      rw [List.flatMap_cons, List.filterMap_append, hcodec, List.map_append,
        ih fun e he => htypes e (List.mem_cons_of_mem _ he), List.map_cons, List.map_cons, hname]
      rfl
  exact hall _ fun d hd => (get?_of_mem_declaredTypes hc hd).2

/-- Types with one identifier are the same type. -/
theorem eq_of_ident_eq (hc : collection.catalog.Consistent) {e : Descriptor}
    (hd : d ∈ collection.declaredTypes calls) (he : e ∈ collection.declaredTypes calls)
    (h : (collection.lowering codecLibrary group calls).ident d.name =
      (collection.lowering codecLibrary group calls).ident e.name) : d = e := by
  have hname : d.name = e.name := Lowering.eq_of_ident_eq (TypeNames.distinct_nameAll _ _ _)
    (TypeNames.isSome_get?_nameAll hd _) (TypeNames.isSome_get?_nameAll he _) h
  have hget := (get?_of_mem_declaredTypes hc hd).1
  rw [hname, (get?_of_mem_declaredTypes hc he).1] at hget
  exact (Option.some.inj hget).symm

/-- A codec library of a unit is that of a declared type. -/
theorem exists_of_mem_codecs (hc : collection.catalog.Consistent) {codec : Codec}
    (h : codec ∈ (collection.unitOf codecLibrary group calls skipped).codecs) :
    ∃ d ∈ collection.declaredTypes calls,
      Declaration.codec codec ∈ (collection.lowering codecLibrary group calls).declarations d ∧
      collection.catalog.kindOf codec.typeName = d.kind := by
  obtain ⟨d, hd, hdeclared⟩ := mem_codecs_unitOf.1 h
  refine ⟨d, hd, hdeclared, ?_⟩
  rw [(Lowering.name_of_codec_mem hdeclared).2]
  exact Catalog.kindOf_of_get? (get?_of_mem_declaredTypes hc hd).1

/-- The tag enum of an enum is declared once. -/
theorem mem_tagEnum_unitOf (hc : collection.catalog.Consistent)
    (hd : d ∈ collection.declaredTypes calls) {variants : List Variant}
    (hkind : d.kind = .enum variants) {members : List String} :
    Declaration.tagEnum
        ((collection.lowering codecLibrary group calls).ident d.name ++ "Tag") members ∈
        (collection.unitOf codecLibrary group calls skipped).declarations ↔
      members = Lowering.tagMembers variants := by
  rw [mem_declarations_unitOf]
  constructor
  · rintro ⟨e, he, hdeclared⟩
    obtain ⟨variants', hkind', hname, rfl⟩ := Lowering.eq_of_tagEnum hdeclared
    obtain rfl := eq_of_ident_eq hc hd he (String.append_left_inj _ |>.1 hname)
    rw [hkind] at hkind'
    cases hkind'
    rfl
  · rintro rfl
    exact ⟨d, hd, Lowering.tagEnum_of_enum _ hkind⟩

/-! ## The unit for some calls -/

/-- The library of a reached type is the one that its encoding leads to. -/
theorem leadsTo_encoding (hc : collection.catalog.Consistent) {handle : String}
    (hreached : handle ∈ collection.reached calls) :
    (collection.unitOf codecLibrary group calls skipped).LeadsTo
      ((collection.lowering codecLibrary group calls).encoding handle) handle := by
  intro name hname
  have hs := serves_unitOf hc codecLibrary group calls skipped
  obtain ⟨d, hget, hleaf, rfl⟩ := Lowering.exists_of_encoding_eq_codec hname
  obtain ⟨c, hdeclared, hfound, -⟩ := hs.finds handle hreached d hget hleaf
  exact ⟨c, hfound, (Lowering.name_of_codec_mem hdeclared).2.trans (hc.name_of_get? hget)⟩

theorem leadsTo_encodings (hc : collection.catalog.Consistent) {handles : List String}
    (hreached : ∀ handle ∈ handles, handle ∈ collection.reached calls) :
    List.Forall₂ (collection.unitOf codecLibrary group calls skipped).LeadsTo
      (handles.map (collection.lowering codecLibrary group calls).encoding) handles := by
  rw [List.forall₂_map_left_iff, List.forall₂_same]
  exact fun handle hhandle => leadsTo_encoding hc (hreached handle hhandle)

/-- A type that a unit may be written with is declared in it. -/
theorem declares_of_mem_names_ty (hc : collection.catalog.Consistent) {handle name : String}
    (hreached : handle ∈ collection.reached calls)
    (hname : name ∈ ((collection.lowering codecLibrary group calls).ty handle).names) :
    (collection.unitOf codecLibrary group calls skipped).Declares name := by
  have hconsistent : (collection.lowering codecLibrary group calls).catalog.Consistent := hc
  obtain ⟨d, hget, hreaches, hleaf, members, hmembers⟩ :=
    Lowering.exists_of_mem_names_ty hconsistent hname
  obtain ⟨call, hcall, arg, harg, hfrom⟩ := hreached
  have hd : d ∈ collection.declaredTypes calls := Catalog.mem_reachable hc
    (List.mem_flatMap.2 ⟨call, hcall, List.mem_map_of_mem harg⟩) (hfrom.trans hreaches) hget hleaf
  exact .inl ⟨members, mem_declarations_unitOf.2 ⟨d, hd, hmembers⟩⟩

theorem types_function (lowering : Lowering) (name : String) (call : ResolvedCall) :
    (lowering.function name call).params.map Param.ty = (handles call).map lowering.ty := by
  rw [Lowering.function, Lowering.types_params, handles, List.map_map, List.map_map]
  rfl

theorem closed_unitOf (hc : collection.catalog.Consistent) (hn : collection.catalog.Numbered)
    (codecLibrary group : String) (calls : List ResolvedCall) (skipped : List SkipNote) :
    ClosedUnit collection.catalog calls
      (collection.unitOf codecLibrary group calls skipped) where
  nodup_codecs := by
    rw [typeNames_unitOf hc]
    exact Catalog.nodup_reachable hc _
  mem_codecs := by
    intro name
    rw [typeNames_unitOf hc]
    exact mem_declaredTypes_iff hc
  functions := by
    refine forall₂_of_mem (functions_unitOf collection codecLibrary group calls skipped) ?_
    rintro f call - hcall ⟨name, rfl⟩
    refine ⟨rfl, encodes_call call.index _, ?_⟩
    rw [encodings_function]
    exact leadsTo_encodings hc (reached_of_mem hcall)
  bodies := by
    intro codec hcodec
    obtain ⟨d, hd, hdeclared, hkind⟩ := exists_of_mem_codecs hc hcodec
    rw [hkind, Lowering.encodings_body hdeclared]
    exact leadsTo_encodings hc fun handle hhandle =>
      reached_of_mem_children hc hd (TypeKind.mem_children_of_mem_parts hhandle)
  constructors := by
    intro codec hcodec
    obtain ⟨d, hd, hdeclared, hkind⟩ := exists_of_mem_codecs hc hcodec
    rw [hkind, Lowering.constructors_of_codec hdeclared]
    refine forall₂_of_mem (Lowering.forall₂_constructors _ _) ?_
    rintro c v - hv ⟨name, member, rfl⟩
    refine ⟨rfl, encodes_payload _, ?_⟩
    rw [show ((collection.lowering codecLibrary group calls).constructor name member v).params =
      (collection.lowering codecLibrary group calls).fields v.fields from rfl,
      Lowering.encodings_fields]
    exact leadsTo_encodings hc fun handle hhandle =>
      reached_of_mem_children hc hd (TypeKind.mem_children_of_mem_variants hv hhandle)
  declared := by
    intro ty hty name hname
    rcases List.mem_append.1 hty with hty | hty
    · obtain ⟨f, hf, hty⟩ := List.mem_flatMap.1 hty
      obtain ⟨call, hcall, base, rfl⟩ := exists_of_mem_forall₂
        (functions_unitOf collection codecLibrary group calls skipped) hf
      rw [types_function] at hty
      obtain ⟨handle, hhandle, rfl⟩ := List.mem_map.1 hty
      exact declares_of_mem_names_ty hc (reached_of_mem hcall handle hhandle) hname
    · obtain ⟨declaration, hdeclaration, hty⟩ := List.mem_flatMap.1 hty
      obtain ⟨d, hd, hdeclared⟩ := mem_declarations_unitOf.1 hdeclaration
      cases Lowering.mentions_of_mem_declarations hdeclared ty hty with
      | plain h =>
        rw [h] at hname
        cases hname
      | self => exact declares_of_mem_names_ty hc (reached_of_mem_declaredTypes hc hd) hname
      | child h => exact declares_of_mem_names_ty hc (reached_of_mem_children hc hd h) hname
      | tag h =>
        rw [List.mem_singleton.1 hname]
        exact .inr ⟨_, mem_declarations_unitOf.2 ⟨d, hd, h⟩⟩
  nodup_functions := nodup_functions_unitOf collection codecLibrary group calls skipped
  nodup_params := by
    intro f hf
    obtain ⟨call, -, name, rfl⟩ := exists_of_mem_forall₂
      (functions_unitOf collection codecLibrary group calls skipped) hf
    exact Lowering.nodup_params _ _
  nodup_members := by
    intro name members h
    obtain ⟨d, -, hdeclared⟩ := mem_declarations_unitOf.1 h
    exact Lowering.nodup_names_of_record hdeclared
  nodup_tags := by
    intro name members h
    obtain ⟨d, -, hdeclared⟩ := mem_declarations_unitOf.1 h
    obtain ⟨variants, -, -, rfl⟩ := Lowering.eq_of_tagEnum hdeclared
    exact Scope.nodup_claimAll _ _
  nodup_constructors := by
    intro codec hcodec
    obtain ⟨d, -, hdeclared⟩ := mem_codecs_unitOf.1 hcodec
    rw [Lowering.constructors_of_codec hdeclared, Lowering.names_constructors]
    exact Scope.nodup_claimAll _ _
  encode_not_mem := by
    intro codec hcodec hmem
    obtain ⟨d, -, hdeclared⟩ := mem_codecs_unitOf.1 hcodec
    rw [Lowering.constructors_of_codec hdeclared, Lowering.names_constructors] at hmem
    exact Scope.not_isTaken_of_mem_claimAll hmem
      (Scope.isTaken_reserving.2 (List.mem_singleton_self _))
  nodup_fields := by
    intro codec hcodec c hmem
    obtain ⟨d, -, hdeclared⟩ := mem_codecs_unitOf.1 hcodec
    rw [Lowering.constructors_of_codec hdeclared] at hmem
    obtain ⟨v, -, name, member, rfl⟩ :=
      exists_of_mem_forall₂ (Lowering.forall₂_constructors _ _) hmem
    exact Lowering.nodup_fields _ _
  tags := by
    intro codec hcodec variants hkind
    obtain ⟨d, hd, hdeclared, hdkind⟩ := exists_of_mem_codecs hc hcodec
    rw [hdkind] at hkind
    refine ⟨_, Lowering.tagMembers variants, Lowering.tagged_of_enum hdeclared hkind,
      fun _ => mem_tagEnum_unitOf hc hd hkind, fun c hmem => ?_⟩
    rw [Lowering.constructors_of_codec hdeclared, hkind] at hmem
    obtain ⟨i, v, hv, hdiscriminant, hmember⟩ := Lowering.member_of_mem_constructors hmem
    rw [hdiscriminant, hn codec.typeName variants (hdkind.trans hkind) i v hv]
    exact hmember

/-- The unit of a group is closed, for the calls of the group that can be encoded. Hence
its functions, codec libraries and constructors fail only because of the values that they
are given or, where there are parameters, because of their number. -/
theorem unit_closed_and_faults (snapshot : Snapshot) (requested : List String) (policy : Policy)
    (codecLibrary group : String) (unit : SourceUnit)
    (h : (ofSnapshot snapshot requested).unit policy codecLibrary group = .ok unit) :
    let collection := ofSnapshot snapshot requested
    ClosedUnit collection.catalog (collection.supportedCalls group) unit ∧
    (∀ f ∈ unit.functions, ∀ args fault, unit.call f.name args = .error fault →
      fault.OfValue ∨ f.params.length ≠ args.length ∧
        fault = .arity f.name f.params.length args.length) ∧
    (∀ codec ∈ unit.codecs, ∀ value fault, unit.applyCodec codec.name value = .error fault →
      fault.OfValue) ∧
    ∀ enumType codec, unit.codec? (enumType ++ "Codec") = some codec →
      ∀ c ∈ codec.constructors, ∀ variant, c.GoesBy variant → ∀ args fault,
        unit.construct enumType variant args = .error fault →
          fault.OfValue ∨ ∃ c ∈ codec.constructors, c.GoesBy variant ∧
            c.params.length ≠ args.length ∧ fault = .arity c.name c.params.length args.length := by
  intro collection
  obtain ⟨skipped, rfl⟩ := exists_unitOf h
  have hclosed := closed_unitOf (consistent_ofSnapshot snapshot requested)
    (numbered_ofSnapshot snapshot requested) codecLibrary group
    (collection.supportedCalls group) skipped
  refine ⟨hclosed, ?_, ?_, ?_⟩
  · intro f hf args fault hfault
    exact hclosed.fault_of_call hf hfault
  · intro codec hcodec value fault hfault
    exact hclosed.ofValue_of_applyCodec hcodec hfault
  · intro enumType codec hcodec c hc variant hvariant args fault hfault
    exact hclosed.fault_of_construct hcodec hc hvariant hfault

/-- A snapshot with a call of a tree, which has a number and more trees, and with another
group. -/
def treeSnapshot : Snapshot where
  chain := ""
  specName := ""
  specVersion := 0
  pallets := [⟨"Garden", 3, [⟨"plant", 1, [⟨"tree", "Tree"⟩]⟩]⟩,
    ⟨"Shed", 1, [⟨"store", 0, [⟨"sizes", "Vec<u16>"⟩]⟩]⟩]
  types := [⟨0, "Tree", [],
    some (.object [("_enum", .object [("Node", .array [.string "u8", .string "Vec<Tree>"])])])⟩]

theorem unit_closed_tree : ∃ unit,
    (ofSnapshot treeSnapshot ["garden"]).unit .skip "ScaleCodec" "Garden" = .ok unit ∧
      unit.codecs.map (fun codec => (codec.typeName, codec.name)) =
        [("Vec<Tree>", "VecTreeCodec"), ("Tree", "TreeCodec")] ∧
      ∀ args fault, unit.construct "Tree" "node" args = .error fault →
        fault.OfValue ∨ ∃ name m n, m ≠ n ∧ fault = .arity name m n := by
  have hunit := unit_skip (ofSnapshot treeSnapshot ["garden"]) "ScaleCodec" "Garden"
  refine ⟨_, hunit, by decide +kernel, fun args fault hfault => ?_⟩
  obtain ⟨-, -, -, hconstruct⟩ :=
    unit_closed_and_faults treeSnapshot ["garden"] .skip "ScaleCodec" "Garden" _ hunit
  have hfound : (((ofSnapshot treeSnapshot ["garden"]).skippingUnit "ScaleCodec" "Garden").codec?
      "TreeCodec").any fun codec => codec.constructors.any fun c => c.name == "node" := by
    decide +kernel
  obtain ⟨codec, hcodec, hc⟩ := (Option.any_eq_true _ _).1 hfound
  obtain ⟨c, hc, hname⟩ := List.any_eq_true.1 hc
  exact (hconstruct "Tree" codec hcodec c hc "node" (.inl (beq_iff_eq.1 hname)) args fault
    hfault).imp id fun ⟨_, _, _, hlength, harity⟩ => ⟨_, _, _, hlength, harity⟩

end ScaleCalls.Collection
