import ScaleCalls.Proofs.Solidity.Closed

/-!
# What the declarations of a type mention

The declarations of a type mention its own identifier and whatever the types behind its
handles are written as, and nothing else. Names within a struct, an enum or a library come
from one scope each.

## Main statements

- `Lowering.encodings_body`, `Lowering.constructors_of_codec` — what a codec library applies
- `Lowering.exists_of_mem_names_ty` — the names in a type are those of declared structs
- `Lowering.mentions_of_mem_declarations` — the types in the declarations of a type
-/

namespace ScaleCalls.Solidity

theorem usesAll_encodeParam (params : List Param) :
    Expr.usesAll (params.map Lowering.encodeParam) =
      params.map fun p => (p.encoding, .param p.name) := by
  induction params with
  | nil => rfl
  | cons p params ih =>
    rw [List.map_cons, List.map_cons, Expr.usesAll, ih]
    rfl

theorem encodes_payload (params : List Param) :
    Encodes (.concat (params.map Lowering.encodeParam)) params := by
  rw [Encodes, Expr.uses, usesAll_encodeParam]

theorem encodes_call (index : CallIndex) (params : List Param) :
    Encodes (.concat (.callIndex index :: params.map Lowering.encodeParam)) params := by
  rw [Encodes, Expr.uses, Expr.usesAll, usesAll_encodeParam]
  rfl

namespace Lowering

variable {lowering : Lowering} {d : Descriptor} {c : Codec} {handle name : String}
  {variants : List Variant}

/-! ## Parameters -/

theorem types_params (lowering : Lowering) (wanted : List (String × String)) :
    (lowering.params wanted).map Param.ty = wanted.map fun w => lowering.ty w.2 := by
  have hlength : (Scope.empty.claimAll (wanted.map Prod.fst)).length = wanted.length := by simp
  rw [params]
  refine map_zipWith_of_right ?_ hlength
  exact fun _ _ => rfl

theorem types_fields (lowering : Lowering) (fields : List Field) :
    (lowering.fields fields).map Param.ty = (fields.map Field.handle).map lowering.ty := by
  rw [Lowering.fields, types_params, List.map_map, List.map_map]
  show fields.zipIdx.map ((lowering.ty ∘ Field.handle) ∘ Prod.fst) = _
  rw [← List.map_map, List.zipIdx_map_fst]

/-! ## Codec libraries -/

/-- Only types that need a declaration are encoded by a codec library. -/
theorem exists_of_encoding_eq_codec (h : lowering.encoding handle = .codec name) :
    ∃ d, lowering.catalog.get? handle = some d ∧ d.isLeaf = false ∧
      name = lowering.codecName handle := by
  unfold encoding at h
  cases hget : lowering.catalog.get? handle with
  | none => simp [hget] at h
  | some d =>
    simp only [hget] at h
    refine ⟨d, rfl, ?_⟩
    unfold Descriptor.isLeaf
    cases hkind : d.kind with
    | primitive kind =>
      simp only [hkind] at h
      cases kind <;> cases h
    | fixedBytes _ | compact _ | unsupported _ => simp [hkind] at h
    | _ =>
      simp only [hkind, Encoding.codec.injEq] at h
      exact ⟨rfl, h.symm⟩

theorem encodings_body (hc : Declaration.codec c ∈ lowering.declarations d) :
    c.body.encodings = d.kind.parts.map lowering.encoding := by
  unfold declarations at hc
  cases hkind : d.kind <;> simp_all [codec, CodecBody.encodings, TypeKind.parts,
    TypeKind.children, encodings_fields]

theorem constructors_of_codec (hc : Declaration.codec c ∈ lowering.declarations d) :
    c.constructors = lowering.constructors d.kind.variants := by
  unfold declarations at hc
  cases hkind : d.kind <;> simp_all [codec, TypeKind.variants, constructors]

/-- A type that needs a declaration has one codec library. -/
theorem codecs_declarations (lowering : Lowering) (hleaf : d.isLeaf = false) :
    ∃ c, (lowering.declarations d).filterMap Declaration.codec? = [c] ∧ c.typeName = d.name := by
  unfold Descriptor.isLeaf at hleaf
  unfold declarations
  cases hkind : d.kind with
  | primitive _ | fixedBytes _ | compact _ | unsupported _ =>
    rw [hkind] at hleaf
    cases hleaf
  | record _ | enum _ | option _ | vector _ | boundedVector _ _ | fixedArray _ _ =>
    exact ⟨_, rfl, rfl⟩

theorem tagged_of_enum (hc : Declaration.codec c ∈ lowering.declarations d)
    (hkind : d.kind = .enum variants) : c.body = .tagged (lowering.ident d.name ++ "Tag") := by
  unfold declarations at hc
  simp_all [codec]

theorem forall₂_constructors (lowering : Lowering) (variants : List Variant) :
    List.Forall₂ (fun c v => ∃ name member, c = lowering.constructor name member v)
      (lowering.constructors variants) variants := by
  refine (forall₂_zipWith _ (by simp [constructorNames, tagMembers])).imp ?_
  rintro c v ⟨⟨name, member⟩, rfl⟩
  exact ⟨name, member, rfl⟩

theorem names_constructors (lowering : Lowering) (variants : List Variant) :
    (lowering.constructors variants).map Constructor.name = constructorNames variants := by
  have hlength : (constructorNames variants).length = (tagMembers variants).length := by
    simp [constructorNames, tagMembers]
  rw [constructors, map_zipWith_of_left (g := Constructor.name) (k := Prod.fst) (fun _ _ => rfl)
    (by simp [constructorNames, tagMembers]), List.map_fst_zip (Nat.le_of_eq hlength)]

theorem members_constructors (lowering : Lowering) (variants : List Variant) :
    (lowering.constructors variants).map Constructor.member = tagMembers variants := by
  have hlength : (tagMembers variants).length ≤ (constructorNames variants).length := by
    simp [constructorNames, tagMembers]
  rw [constructors, map_zipWith_of_left (g := Constructor.member) (k := Prod.snd)
    (fun _ _ => rfl) (by simp [constructorNames, tagMembers]), List.map_snd_zip hlength]

/-- A constructor has the member of the tag enum at the place of its variant. -/
theorem member_of_mem_constructors {k : Constructor} (hk : k ∈ lowering.constructors variants) :
    ∃ (i : Nat) (v : Variant), variants[i]? = some v ∧ k.discriminant = v.discriminant ∧
      (tagMembers variants)[i]? = some k.member := by
  obtain ⟨i, hi, rfl⟩ := List.mem_iff_getElem.1 hk
  have hlengths : i < (constructorNames variants).length ∧ i < (tagMembers variants).length ∧
      i < variants.length := by
    simpa [constructors, constructorNames, tagMembers] using hi
  refine ⟨i, variants.get ⟨i, hlengths.2.2⟩, List.getElem?_eq_getElem _, ?_, ?_⟩
  · simp [constructors, constructor]
  · simp [constructors, constructor, hlengths.2.1]

/-! ## Structs and enums -/

theorem nodup_names_of_record {members : List Member}
    (h : Declaration.record name members ∈ lowering.declarations d) :
    (members.map Member.name).Nodup := by
  have hstruct : ∀ fields : List Param, (fields.map Param.name).Nodup →
      ((Lowering.members fields).map Member.name).Nodup := by
    intro fields hfields
    unfold Lowering.members
    split
    · exact List.nodup_singleton _
    · rwa [List.map_map]
  unfold declarations at h
  cases hkind : d.kind with
  | record fields =>
    simp only [hkind, codec, List.mem_cons, List.not_mem_nil, or_false, Declaration.record.injEq,
      reduceCtorEq] at h
    rw [h.2]
    exact hstruct _ (nodup_fields lowering fields)
  | enum variants =>
    simp only [hkind, codec, List.mem_cons, List.not_mem_nil, or_false, Declaration.record.injEq,
      reduceCtorEq, false_or] at h
    rw [h.2]
    simp
  | option elem =>
    simp only [hkind, codec, List.mem_cons, List.not_mem_nil, or_false, Declaration.record.injEq,
      reduceCtorEq] at h
    rw [h.2]
    simp
  | _ => simp [hkind, codec] at h

theorem eq_of_tagEnum {members : List String}
    (h : Declaration.tagEnum name members ∈ lowering.declarations d) :
    ∃ variants, d.kind = .enum variants ∧ name = lowering.ident d.name ++ "Tag" ∧
      members = tagMembers variants := by
  unfold declarations at h
  cases hkind : d.kind <;> simp_all [codec]

theorem tagEnum_of_enum (lowering : Lowering) (hkind : d.kind = .enum variants) :
    Declaration.tagEnum (lowering.ident d.name ++ "Tag") (tagMembers variants) ∈
      lowering.declarations d := by
  unfold declarations
  simp [hkind]

/-! ## The names that types are written with -/

theorem exists_record (lowering : Lowering)
    (h : (∃ elem, d.kind = .option elem) ∨ (∃ fields, d.kind = .record fields) ∨
      ∃ variants, d.kind = .enum variants) :
    ∃ members, Declaration.record (lowering.ident d.name) members ∈ lowering.declarations d := by
  unfold declarations
  obtain ⟨elem, hkind⟩ | ⟨fields, hkind⟩ | ⟨variants, hkind⟩ := h <;> simp [hkind]

theorem names_primitive (kind : Primitive) : (primitive kind).1.names = [] := by
  cases kind <;> rfl

/-- The only names that a type is written with are those of structs that stand for types
which it reaches. -/
theorem exists_of_mem_names_ty (hc : lowering.catalog.Consistent)
    (h : name ∈ (lowering.ty handle).names) :
    ∃ d, lowering.catalog.get? d.name = some d ∧ lowering.catalog.Reaches handle d.name ∧
      d.isLeaf = false ∧ ∃ members, Declaration.record name members ∈ lowering.declarations d := by
  unfold ty at h
  generalize lowering.catalog.size + 1 = fuel at h
  induction fuel generalizing handle with
  | zero => simp [tyWithin, Ty.names] at h
  | succ fuel ih =>
    rw [tyWithin] at h
    cases hget : lowering.catalog.get? handle with
    | none => simp [hget, Ty.names] at h
    | some d =>
      obtain rfl := hc.name_of_get? hget
      -- the names in an array are those of its element
      have helem : ∀ elem ∈ d.children, name ∈ (lowering.tyWithin fuel elem).names →
          ∃ e, lowering.catalog.get? e.name = some e ∧
            lowering.catalog.Reaches d.name e.name ∧ e.isLeaf = false ∧
            ∃ members, Declaration.record name members ∈ lowering.declarations e := by
        intro elem hchild hname
        obtain ⟨e, he, hreaches, hleaf, hdeclared⟩ := ih hname
        exact ⟨e, he, hreaches.head ⟨d, hget, hchild⟩, hleaf, hdeclared⟩
      have hself : name = lowering.ident d.name → d.isLeaf = false →
          ((∃ elem, d.kind = .option elem) ∨ (∃ fields, d.kind = .record fields) ∨
            ∃ variants, d.kind = .enum variants) →
          ∃ e, lowering.catalog.get? e.name = some e ∧
            lowering.catalog.Reaches d.name e.name ∧ e.isLeaf = false ∧
            ∃ members, Declaration.record name members ∈ lowering.declarations e := by
        rintro rfl hleaf hkind
        exact ⟨d, hget, .refl, hleaf, exists_record lowering hkind⟩
      simp only [hget] at h
      cases hkind : d.kind with
      | primitive kind => simp [hkind, names_primitive] at h
      | fixedBytes len =>
        simp only [hkind] at h
        split at h <;> simp [Ty.names] at h
      | compact width => simp [hkind, Ty.names] at h
      | unsupported fault => simp [hkind, Ty.names] at h
      | vector elem | boundedVector elem _ | fixedArray elem _ =>
        simp only [hkind, Ty.names] at h
        exact helem elem (by simp [Descriptor.children, hkind, TypeKind.children]) h
      | option elem =>
        simp only [hkind, Ty.names, List.mem_singleton] at h
        exact hself h (by simp [Descriptor.isLeaf, hkind, TypeKind.isLeaf]) (.inl ⟨elem, hkind⟩)
      | record fields =>
        simp only [hkind, Ty.names, List.mem_singleton] at h
        exact hself h (by simp [Descriptor.isLeaf, hkind, TypeKind.isLeaf])
          (.inr (.inl ⟨fields, hkind⟩))
      | enum variants =>
        simp only [hkind, Ty.names, List.mem_singleton] at h
        exact hself h (by simp [Descriptor.isLeaf, hkind, TypeKind.isLeaf])
          (.inr (.inr ⟨variants, hkind⟩))

/-- The types that the declarations of a type may mention: those without a generated name,
its own, those behind its handles, and the tag enum of an enum. -/
inductive Mentions (lowering : Lowering) (d : Descriptor) : Ty → Prop
  | plain {ty : Ty} (h : ty.names = []) : Mentions lowering d ty
  | self : Mentions lowering d (lowering.ty d.name)
  | child {handle : String} (h : handle ∈ d.children) : Mentions lowering d (lowering.ty handle)
  | tag {name : String} {members : List String}
      (h : Declaration.tagEnum name members ∈ lowering.declarations d) :
      Mentions lowering d (.named name)

theorem mentions_fields {fields : List Field} (hfields : ∀ f ∈ fields, f.handle ∈ d.children) :
    ∀ p ∈ lowering.fields fields, Mentions lowering d p.ty := by
  intro p hp
  have hty : p.ty ∈ (lowering.fields fields).map Param.ty := List.mem_map_of_mem hp
  rw [types_fields] at hty
  obtain ⟨handle, hhandle, heq⟩ := List.mem_map.1 hty
  obtain ⟨f, hf, rfl⟩ := List.mem_map.1 hhandle
  exact heq ▸ .child (hfields f hf)

theorem mentions_constructors (hkind : d.kind = .enum variants) :
    ∀ p ∈ (lowering.constructors variants).flatMap Constructor.params,
      Mentions lowering d p.ty := by
  intro p hp
  obtain ⟨c, hc, hp⟩ := List.mem_flatMap.1 hp
  obtain ⟨v, hv, name, member, rfl⟩ :=
    exists_of_mem_forall₂ (forall₂_constructors lowering variants) hc
  refine mentions_fields (fun f hf => ?_) p hp
  rw [Descriptor.children, hkind]
  exact List.mem_flatMap.2 ⟨v, hv, List.mem_map_of_mem hf⟩

/-- A codec library mentions its type and what its parameters mention. -/
theorem mentions_codec {body : CodecBody} {constructors : List Constructor}
    (hbody : ∀ p ∈ body.params, Mentions lowering d p.ty)
    (hconstructors : ∀ p ∈ constructors.flatMap Constructor.params, Mentions lowering d p.ty) :
    ∀ ty ∈ (lowering.codec d body constructors).types, Mentions lowering d ty := by
  intro ty hty
  simp only [codec, Declaration.types, List.mem_cons, List.mem_map, List.mem_append] at hty
  obtain rfl | ⟨p, hp | hp, rfl⟩ := hty
  · exact .self
  · exact hbody p hp
  · exact hconstructors p hp

theorem mentions_of_mem_declarations {declaration : Declaration}
    (h : declaration ∈ lowering.declarations d) :
    ∀ ty ∈ declaration.types, Mentions lowering d ty := by
  have hplain : ∀ {body : CodecBody}, body.params = [] →
      ∀ ty ∈ (lowering.codec d body []).types, Mentions lowering d ty := by
    intro body hbody
    exact mentions_codec (by simp [hbody]) (by simp)
  unfold declarations at h
  cases hkind : d.kind with
  | record fields =>
    have hfields : ∀ p ∈ lowering.fields fields, Mentions lowering d p.ty :=
      mentions_fields fun f hf => by
        rw [Descriptor.children, hkind]
        exact List.mem_map_of_mem hf
    simp only [hkind, List.mem_cons, List.not_mem_nil, or_false] at h
    rcases h with rfl | rfl
    · intro ty hty
      simp only [Declaration.types, members] at hty
      split at hty
      · simp only [List.map_cons, List.map_nil, List.mem_singleton] at hty
        exact .plain (by rw [hty]; rfl)
      · rw [List.map_map] at hty
        obtain ⟨p, hp, rfl⟩ := List.mem_map.1 hty
        exact hfields p hp
    · exact mentions_codec hfields (by simp)
  | enum variants =>
    simp only [hkind, List.mem_cons, List.not_mem_nil, or_false] at h
    rcases h with rfl | rfl | rfl
    · simp [Declaration.types]
    · intro ty hty
      simp only [Declaration.types, List.map_cons, List.map_nil, List.mem_cons, List.not_mem_nil,
        or_false] at hty
      rcases hty with rfl | rfl
      · exact .tag (tagEnum_of_enum lowering hkind)
      · exact .plain rfl
    · exact mentions_codec (by simp [CodecBody.params]) (mentions_constructors hkind)
  | option elem =>
    simp only [hkind, List.mem_cons, List.not_mem_nil, or_false] at h
    rcases h with rfl | rfl
    · intro ty hty
      simp only [Declaration.types, List.map_cons, List.map_nil, List.mem_cons, List.not_mem_nil,
        or_false] at hty
      rcases hty with rfl | rfl
      · exact .plain rfl
      · exact .child (by simp [Descriptor.children, hkind, TypeKind.children])
    · exact hplain rfl
  | vector elem | boundedVector elem _ | fixedArray elem _ =>
    simp only [hkind, List.mem_singleton] at h
    subst h
    exact hplain rfl
  | _ => simp [hkind] at h

end Lowering

end ScaleCalls.Solidity
