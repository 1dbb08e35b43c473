import ScaleCalls.Proofs.Solidity.Faults
import ScaleCalls.Proofs.Solidity.Lowering
import ScaleCalls.Proofs.Types.DepthFirst

/-!
# Closed units

A unit is closed if everything that its code mentions is there, and there once: the codec
libraries of its encodings, and they are those of the types that are encoded; the structs
and enums of its types; the parameters of its functions. Code of a closed unit can only
fail because of the values that it is given, or of their number.

## Main definitions

- `SourceUnit.LeadsTo` — an encoding is that of a type
- `ClosedUnit` — what makes a unit closed

## Main statements

- `ClosedUnit.ofValue_of_applyCodec` — codec libraries fail only because of values
- `ClosedUnit.fault_of_call`, `ClosedUnit.fault_of_construct` — functions and
  constructors
-/

namespace ScaleCalls

/-- The variants of an enum; no other kind has any. -/
def TypeKind.variants : TypeKind → List Variant
  | .enum variants => variants
  | _ => []

/-- The handles of what a codec library encodes itself. The fields of an enum are encoded
where its values are made. -/
def TypeKind.parts : TypeKind → List String
  | .enum _ => []
  | kind => kind.children

theorem TypeKind.mem_children_of_mem_parts {kind : TypeKind} {handle : String}
    (h : handle ∈ kind.parts) : handle ∈ kind.children := by
  cases kind <;> first | exact h | cases h

theorem TypeKind.mem_children_of_mem_variants {kind : TypeKind} {v : Variant} {handle : String}
    (hv : v ∈ kind.variants) (h : handle ∈ v.fields.map Field.handle) :
    handle ∈ kind.children := by
  cases kind with
  | enum variants => exact List.mem_flatMap.2 ⟨v, hv, h⟩
  | _ => cases hv

namespace Solidity

/-- The generated names that a type mentions. -/
def Ty.names : Ty → List String
  | .named name => [name]
  | .array elem _ => elem.names
  | _ => []

/-- The parameters that the body of a codec library lists. -/
def CodecBody.params : CodecBody → List Param
  | .record fields => fields
  | _ => []

/-- The types that a declaration mentions. -/
def Declaration.types : Declaration → List Ty
  | .tagEnum _ _ => []
  | .record _ members => members.map Member.ty
  | .codec c =>
    c.subject :: (c.body.params ++ c.constructors.flatMap Constructor.params).map Param.ty

/-- What an expression is if it does nothing but encode some parameters. -/
def Encodes (body : Expr) (params : List Param) : Prop :=
  body.uses = params.map fun p => (p.encoding, .param p.name)

/-- A variant is made by its constructor's name or by its member of the tag enum. -/
def Constructor.GoesBy (c : Constructor) (variant : String) : Prop :=
  c.name = variant ∨ c.member = variant

namespace SourceUnit

/-- All types that the code of a unit mentions. -/
def types (unit : SourceUnit) : List Ty :=
  unit.functions.flatMap (fun f => f.params.map Param.ty) ++
    unit.declarations.flatMap Declaration.types

/-- A struct or an enum of this name is declared. -/
def Declares (unit : SourceUnit) (name : String) : Prop :=
  (∃ members, .record name members ∈ unit.declarations) ∨
    ∃ members, .tagEnum name members ∈ unit.declarations

/-- If an encoding is that of a codec library, there is one of its name, and it is the
library of the type with this handle. -/
def LeadsTo (unit : SourceUnit) (encoding : Encoding) (handle : String) : Prop :=
  ∀ name, encoding = .codec name → ∃ codec, unit.codec? name = some codec ∧ codec.typeName = handle

end SourceUnit

/-- A unit for some calls whose code mentions nothing that is not there. -/
structure ClosedUnit (catalog : Catalog) (calls : List ResolvedCall) (unit : SourceUnit) :
    Prop where
  nodup_codecs : (unit.codecs.map Codec.typeName).Nodup
  mem_codecs : ∀ name, name ∈ unit.codecs.map Codec.typeName ↔
    (∃ call ∈ calls, ∃ arg ∈ call.args, catalog.Reaches arg.handle name) ∧
      (catalog.kindOf name).isLeaf = false
  functions : List.Forall₂
    (fun f call => f.qualified = call.qualified ∧ Encodes f.body f.params ∧
      List.Forall₂ unit.LeadsTo (f.params.map Param.encoding)
        (call.args.map ResolvedArgument.handle))
    unit.functions calls
  bodies : ∀ codec ∈ unit.codecs,
    List.Forall₂ unit.LeadsTo codec.body.encodings (catalog.kindOf codec.typeName).parts
  constructors : ∀ codec ∈ unit.codecs, List.Forall₂
    (fun c v => c.discriminant = v.discriminant ∧ Encodes c.payload c.params ∧
      List.Forall₂ unit.LeadsTo (c.params.map Param.encoding) (v.fields.map Field.handle))
    codec.constructors (catalog.kindOf codec.typeName).variants
  declared : ∀ ty ∈ unit.types, ∀ name ∈ ty.names, unit.Declares name
  nodup_functions : (unit.functions.map CallFunction.name).Nodup
  nodup_params : ∀ f ∈ unit.functions, (f.params.map Param.name).Nodup
  nodup_members : ∀ name members, .record name members ∈ unit.declarations →
    (members.map Member.name).Nodup
  nodup_tags : ∀ name members, .tagEnum name members ∈ unit.declarations → members.Nodup
  nodup_constructors : ∀ codec ∈ unit.codecs, (codec.constructors.map Constructor.name).Nodup
  encode_not_mem : ∀ codec ∈ unit.codecs, "encode" ∉ codec.constructors.map Constructor.name
  nodup_fields : ∀ codec ∈ unit.codecs, ∀ c ∈ codec.constructors, (c.params.map Param.name).Nodup
  tags : ∀ codec ∈ unit.codecs, ∀ variants, catalog.kindOf codec.typeName = .enum variants →
    ∃ tag members, codec.body = .tagged tag ∧
      (∀ members', .tagEnum tag members' ∈ unit.declarations ↔ members' = members) ∧
      ∀ c ∈ codec.constructors, members[c.discriminant.toNat]? = some c.member

namespace ClosedUnit

variable {catalog : Catalog} {calls : List ResolvedCall} {unit : SourceUnit} {fault : EvalFault}

theorem resolves_of_leadsTo {encodings : List Encoding} {handles : List String}
    (h : List.Forall₂ unit.LeadsTo encodings handles) :
    ∀ encoding ∈ encodings, unit.Resolves encoding := by
  intro encoding hmem name hname
  obtain ⟨handle, -, hleads⟩ := exists_of_mem_forall₂ h hmem
  obtain ⟨codec, hcodec, -⟩ := hleads name hname
  exact ⟨codec, hcodec⟩

theorem bodiesResolve (h : ClosedUnit catalog calls unit) : unit.BodiesResolve :=
  fun codec hcodec => resolves_of_leadsTo (h.bodies codec hcodec)

theorem exists_lookup_zip {names : List String} {values : List Value}
    (hlength : names.length = values.length) {name : String} (h : name ∈ names) :
    ∃ v, (names.zip values).lookup name = some v := by
  induction names generalizing values with
  | nil => cases h
  | cons first names ih =>
    cases values with
    | nil => cases hlength
    | cons value values =>
      rw [List.zip_cons_cons, List.lookup_cons]
      by_cases hfirst : name = first
      · exact ⟨value, by simp [hfirst]⟩
      · rw [beq_eq_false_iff_ne.2 hfirst]
        exact ih (Nat.succ.inj hlength) ((List.mem_cons.1 h).resolve_left hfirst)

/-- Parameters are bound to as many values as there are. -/
theorem fault_of_bind {params : List Param} {body : Expr} {name : String} {args : List Value}
    (hunit : unit.BodiesResolve) (hbody : Encodes body params)
    (hparams : ∀ p ∈ params, unit.Resolves p.encoding)
    (h : (do unit.expr (← SourceUnit.bind name params args) body) = .error fault) :
    fault.OfValue ∨
      params.length ≠ args.length ∧ fault = .arity name params.length args.length := by
  obtain hbind | ⟨env, hbind, h⟩ := bind_eq_error.1 h
  · unfold SourceUnit.bind at hbind
    split at hbind <;> cases hbind
    rename_i hlength
    exact Or.inr ⟨hlength, rfl⟩
  · unfold SourceUnit.bind at hbind
    split at hbind <;> cases hbind
    rename_i hlength
    refine Or.inl (SourceUnit.ofValue_of_expr hunit body (fun use huse => ?_) h)
    rw [hbody] at huse
    obtain ⟨p, hp, rfl⟩ := List.mem_map.1 huse
    have hnames : (params.map Param.name).length = args.length := by rw [List.length_map, hlength]
    obtain ⟨v, hv⟩ := exists_lookup_zip hnames (List.mem_map_of_mem hp)
    exact ⟨hparams p hp, p.name, v, rfl, hv⟩

theorem resolves_params {params : List Param} {handles : List String}
    (h : List.Forall₂ unit.LeadsTo (params.map Param.encoding) handles) :
    ∀ p ∈ params, unit.Resolves p.encoding :=
  fun _ hp => resolves_of_leadsTo h _ (List.mem_map_of_mem hp)

/-- The functions of a closed unit know everything that they mention. -/
theorem fault_of_call (h : ClosedUnit catalog calls unit) {f : CallFunction}
    (hf : f ∈ unit.functions) {args : List Value} (hfault : unit.call f.name args = .error fault) :
    fault.OfValue ∨
      f.params.length ≠ args.length ∧ fault = .arity f.name f.params.length args.length := by
  obtain ⟨call, -, -, hbody, hleads⟩ := exists_of_mem_forall₂ h.functions hf
  rw [SourceUnit.call, function?_of_mem h.nodup_functions hf] at hfault
  exact fault_of_bind h.bodiesResolve hbody (resolves_params hleads) hfault

theorem ofValue_of_applyCodec (h : ClosedUnit catalog calls unit) {codec : Codec}
    (hcodec : codec ∈ unit.codecs) {value : Value}
    (hfault : unit.applyCodec codec.name value = .error fault) : fault.OfValue := by
  refine SourceUnit.ofValue_of_encode h.bodiesResolve value ?_ hfault
  rintro name hname
  cases hname
  exact Option.isSome_iff_exists.1 (List.find?_isSome.2 ⟨codec, hcodec, by simp⟩)

/-- So do the constructors of a codec library, whichever of them goes by a name. -/
theorem fault_of_construct (h : ClosedUnit catalog calls unit) {codec : Codec} {enumType : String}
    (hcodec : unit.codec? (enumType ++ "Codec") = some codec) {c : Constructor}
    (hc : c ∈ codec.constructors) {variant : String} (hvariant : c.GoesBy variant)
    {args : List Value} (hfault : unit.construct enumType variant args = .error fault) :
    fault.OfValue ∨ ∃ c ∈ codec.constructors, c.GoesBy variant ∧
      c.params.length ≠ args.length ∧ fault = .arity c.name c.params.length args.length := by
  have hsome : (codec.constructors.find? fun c => c.name == variant || c.member == variant).isSome :=
    List.find?_isSome.2 ⟨c, hc, by simpa [Constructor.GoesBy] using hvariant⟩
  obtain ⟨k, hk⟩ := Option.isSome_iff_exists.1 hsome
  have hkmem := List.mem_of_find?_eq_some hk
  have hkvariant : k.GoesBy variant := by
    simpa [Constructor.GoesBy] using List.find?_some hk
  obtain ⟨v, -, -, hpayload, hleads⟩ := exists_of_mem_forall₂
    (h.constructors codec (SourceUnit.mem_codecs_of_codec? hcodec)) hkmem
  rw [SourceUnit.construct, hcodec] at hfault
  simp only [hk] at hfault
  obtain hbytes | ⟨env, hbind, hfault⟩ := bind_eq_error.1 hfault
  · exact (fault_of_bind h.bodiesResolve hpayload (resolves_params hleads)
      (bind_eq_error.2 (.inl hbytes))).imp id fun harity => ⟨k, hkmem, hkvariant, harity⟩
  · obtain hbytes | ⟨bytes, -, hfault⟩ := bind_eq_error.1 hfault
    · exact (fault_of_bind h.bodiesResolve hpayload (resolves_params hleads)
        (bind_eq_error.2 (.inr ⟨env, hbind, hbytes⟩))).imp id
          fun harity => ⟨k, hkmem, hkvariant, harity⟩
    · cases hfault

end ClosedUnit

end Solidity

end ScaleCalls
