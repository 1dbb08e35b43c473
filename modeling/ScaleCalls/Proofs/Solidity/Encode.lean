import ScaleCalls.Proofs.Solidity.Lowering
import ScaleCalls.Proofs.Solidity.Represents

/-!
# Generated encoders write SCALE

In a unit that serves a set of types, a value that stands for a value of such a type
is encoded by the bytes of that value. The proof follows the value: every construct
passes on to its parts, whose types are served as well.

## Main statements

- `Lowering.Serves.encode_eq` — the bytes of a value in the encoding of its type
- `Lowering.Serves.construct_eq` — what a constructor of an enum returns
-/

namespace ScaleCalls.Solidity.Lowering

variable {lowering : Lowering} {unit : SourceUnit} {names : Set String} {name : String}
  {stands : Value → Value → Prop}

theorem eq_of_isCodec {d : Descriptor} (hd : lowering.catalog.get? name = some d)
    (hleaf : d.isLeaf = false) : lowering.encoding name = .codec (lowering.codecName name) := by
  rw [encoding_eq, Catalog.kindOf_of_get? hd]
  unfold Descriptor.isLeaf at hleaf
  cases hkind : d.kind <;> rw [hkind] at hleaf <;> first | rfl | cases hleaf

namespace Serves

/-- What is known of a served type that is no leaf. -/
theorem exists_codec (hs : lowering.Serves unit names) (hname : name ∈ names) {kind : TypeKind}
    (hkind : lowering.catalog.kindOf name = kind) (hleaf : kind.isLeaf = false) :
    ∃ c, Declaration.codec c ∈ lowering.declarations ⟨name, kind⟩ ∧
      unit.codec? c.name = some c ∧ unit.codecFor? name = some c ∧
      lowering.encoding name = .codec c.name ∧ ∀ child ∈ kind.children, child ∈ names := by
  obtain ⟨d, hd, rfl⟩ := Catalog.get?_of_kindOf hkind (by cases kind <;> first | rfl | cases hleaf)
  obtain ⟨c, hdeclared, hcodec, hcodecFor⟩ := hs.finds name hname d hd hleaf
  have hdname : d.name = name := hs.consistent.name_of_get? hd
  subst hdname
  have hcname : lowering.codecName d.name = c.name := (name_of_codec_mem hdeclared).1.symm
  rw [hcname] at hcodec
  refine ⟨c, hdeclared, hcodec, hcodecFor, ?_, ?_⟩
  · rw [← hcname]
    exact eq_of_isCodec hd hleaf
  · exact fun child hchild => hs.closed d.name hname child ⟨d, hd, hchild⟩

/-- A constructor returns the byte of its variant and its encoded fields. -/
theorem construct_eq (hs : lowering.Serves unit names) (hname : name ∈ names)
    {variants : List Variant} {position : Nat} {v : Variant} {codec : Codec}
    {enumType text : String} {args : List Value} {payload : Bytes}
    (hkind : lowering.catalog.kindOf name = .enum variants) (hv : variants[position]? = some v)
    (hcodec : unit.codecFor? name = some codec) (hcodecName : codec.name = enumType ++ "Codec")
    (hfound : codec.constructors.findIdx? (fun c => c.name == text || c.member == text) =
      some position)
    (hlength : (v.fields.map Field.handle).length = args.length)
    (hargs : unit.encodeAll ((v.fields.map Field.handle).map lowering.encoding) args =
      .ok payload) :
    unit.construct enumType text args = .ok (.tagged v.discriminant payload) := by
  obtain ⟨c, hdeclared, hbyName, hcodecFor, -, -⟩ := hs.exists_codec hname hkind rfl
  rw [hcodecFor] at hcodec
  cases hcodec
  obtain ⟨-, hconstructors⟩ := body_of_enum hdeclared
  obtain ⟨ctorName, member, hctor⟩ := getElem?_constructors lowering hv
  have hfind : (codec.constructors.find? fun c => c.name == text || c.member == text) =
      some (lowering.constructor ctorName member v) := by
    rw [List.find?_eq_bind_findIdx?_getElem?, hfound, Option.bind_some, hconstructors, hctor]
  rw [SourceUnit.construct_eq (hcodecName ▸ hbyName) hfind rfl (nodup_fields lowering v.fields)]
  · rw [show (lowering.constructor ctorName member v).params = lowering.fields v.fields by rfl,
      encodings_fields, hargs]
    rfl
  · rw [← hlength, List.length_map]
    exact length_fields lowering v.fields

variable {stands : Value → Value → Prop}

theorem field_of_stands (hstands : ∀ value made, stands value made → value.Covers made)
    {fields : List Field} {value : Value} {values : List Value}
    (hvalue : stands value (.record (((lowering.fields fields).map Param.name).zip values)))
    {p : Param} {v : Value} (hmem : (p, v) ∈ (lowering.fields fields).zip values) :
    value.field p.name = .ok v := by
  refine hstands _ _ hvalue p.name v (Value.field_record.2 ?_)
  exact lookup_zip_of_nodup (nodup_fields lowering fields) (SourceUnit.mem_zip_names hmem)

theorem encode_sequence_eq {c : Codec} {elem : String} {counted : Bool} {bound len : Option Nat}
    {values : List Value} {items : List Datum} (hbyName : unit.codec? c.name = some c)
    (hbody : c.body = .sequence (lowering.encoding elem) counted bound len)
    (hlength : items.length = values.length) (hcount : checkLength bound len items.length = .ok ())
    (hparts : unit.encodeAll ((List.replicate items.length elem).map lowering.encoding) values =
      .ok (Datum.scaleAll lowering.catalog (List.replicate items.length elem) items)) :
    unit.encode (.codec c.name) (.list values) =
      .ok (lengthBytes counted items.length ++
        Datum.scaleAll lowering.catalog (List.replicate items.length elem) items) := by
  rw [hlength] at hcount
  rw [List.map_replicate, hlength] at hparts
  rw [SourceUnit.encode_sequence hbyName hbody hcount, hparts, hlength]
  rfl

mutual

/-- A value that stands for a value of a served type is encoded by the bytes of that value. -/
theorem encode_eq (hs : lowering.Serves unit names)
    (hstands : ∀ value made, stands value made → value.Covers made) (d : Datum) {name : String}
    {value : Value} (hname : name ∈ names)
    (hv : Represents unit lowering.catalog stands name value d)
    (ht : d.Typed lowering.catalog (lowering.catalog.kindOf name)) :
    unit.encode (lowering.encoding name) value =
      .ok (d.scale lowering.catalog (lowering.catalog.kindOf name)) := by
  cases d with
  | scalar s => exact encode_of_holds lowering ht hv
  | sequence items =>
    obtain ⟨elem, values, helem, rfl, hitems⟩ := hv
    have hlength := hitems.length_eq.2
    have hall : elem ∈ names → ∀ child ∈ List.replicate items.length elem, child ∈ names :=
      fun helem child hchild => List.eq_of_mem_replicate hchild ▸ helem
    -- the containers differ in whether the count is written and in what it is checked against
    cases hkind : lowering.catalog.kindOf name with
    | vector elem' =>
      rw [hkind] at ht helem
      cases helem
      obtain ⟨c, hdeclared, hbyName, -, hencoding, hchildren⟩ := hs.exists_codec hname hkind rfl
      have hparts := encodeAll_eq hs hstands items (hall (hchildren elem List.mem_cons_self)) hitems
        ht.2
      rw [hencoding, encode_sequence_eq hbyName (body_of_vector hdeclared) hlength rfl hparts,
        lengthBytes, if_pos rfl, Scale.compact_eq_compactOf]
      rfl
    | boundedVector elem' bound =>
      rw [hkind] at ht helem
      cases helem
      obtain ⟨c, hdeclared, hbyName, -, hencoding, hchildren⟩ := hs.exists_codec hname hkind rfl
      have hparts := encodeAll_eq hs hstands items (hall (hchildren elem List.mem_cons_self)) hitems
        ht.2.2
      have hcount : checkLength bound none items.length = .ok () := by
        have hbound := ht.2.1
        cases bound with
        | none => rfl
        | some limit => simpa [checkLength] using hbound limit rfl
      rw [hencoding, encode_sequence_eq hbyName (body_of_boundedVector hdeclared) hlength hcount
        hparts, lengthBytes, if_pos rfl, Scale.compact_eq_compactOf]
      rfl
    | fixedArray elem' len =>
      rw [hkind] at ht helem
      cases helem
      obtain ⟨c, hdeclared, hbyName, -, hencoding, hchildren⟩ := hs.exists_codec hname hkind rfl
      have hparts := encodeAll_eq hs hstands items (hall (hchildren elem List.mem_cons_self)) hitems
        ht.2
      have hcount : checkLength none (some len) items.length = .ok () := by
        simp [checkLength, ht.1]
      rw [hencoding, encode_sequence_eq hbyName (body_of_fixedArray hdeclared) hlength hcount
        hparts]
      rfl
    | _ =>
      rw [hkind] at ht
      cases ht
  | none =>
    cases hkind : lowering.catalog.kindOf name with
    | option elem =>
      obtain ⟨c, hdeclared, hbyName, -, hencoding, -⟩ := hs.exists_codec hname hkind rfl
      rw [hencoding, SourceUnit.encode_none hbyName (body_of_option hdeclared) (hstands _ _ hv)]
      rfl
    | _ =>
      rw [hkind] at ht
      cases ht
  | some d =>
    obtain ⟨elem, inner, helem, hinner, hvalue⟩ := hv
    cases hkind : lowering.catalog.kindOf name with
    | option elem' =>
      rw [hkind] at ht helem
      cases helem
      obtain ⟨c, hdeclared, hbyName, -, hencoding, hchildren⟩ := hs.exists_codec hname hkind rfl
      have hd := encode_eq hs hstands d (hchildren elem List.mem_cons_self) hinner ht
      rw [hencoding, SourceUnit.encode_some hbyName (body_of_option hdeclared) (hstands _ _ hvalue),
        hd]
      rfl
    | _ =>
      rw [hkind] at ht
      cases ht
  | record parts =>
    obtain ⟨fields, codec, params, values, hkind, hcodec, hbody, hparts, hvalue⟩ := hv
    rw [hkind] at ht ⊢
    obtain ⟨c, hdeclared, hbyName, hcodecFor, hencoding, hchildren⟩ :=
      hs.exists_codec hname hkind rfl
    -- the fields have the names that the library of the type gives them
    rw [hcodecFor] at hcodec
    cases hcodec
    rw [body_of_record hdeclared] at hbody
    cases hbody
    have hencoded := encodeAll_eq hs hstands parts hchildren hparts ht
    have hlength : (lowering.fields fields).length = values.length := by
      rw [length_fields, ← hparts.length_eq.1, List.length_map]
    rw [hencoding, SourceUnit.encode_record hbyName (body_of_record hdeclared) hlength
      fun p v hmem => field_of_stands hstands hvalue hmem, encodings_fields]
    exact hencoded
  | variant position parts =>
    obtain ⟨variants, v, codec, enumType, text, args, made, hkind, hv, hcodec, hcodecName, hfound,
      hargs, hmade, hvalue⟩ := hv
    rw [hkind] at ht ⊢
    obtain ⟨w, hw, htyped⟩ := ht
    rw [hv] at hw
    cases hw
    obtain ⟨c, hdeclared, hbyName, hcodecFor, hencoding, hchildren⟩ :=
      hs.exists_codec hname hkind rfl
    have hbelow : ∀ child ∈ v.fields.map Field.handle, child ∈ names := fun child hchild =>
      hchildren child (List.mem_flatMap.2 ⟨v, List.mem_of_getElem? hv, hchild⟩)
    -- the value is what the constructor returned, so its payload was encoded before
    have hpayload := encodeAll_eq hs hstands parts hbelow hargs htyped
    rw [hs.construct_eq hname hkind hv hcodec hcodecName hfound hargs.length_eq.1 hpayload] at hmade
    cases hmade
    obtain ⟨⟨tag, hbody⟩, -⟩ := body_of_enum hdeclared
    rw [hencoding, SourceUnit.encode_tagged hbyName hbody (hstands _ _ hvalue)]
    simp only [Datum.scale, hv]
termination_by sizeOf d

theorem encodeAll_eq (hs : lowering.Serves unit names)
    (hstands : ∀ value made, stands value made → value.Covers made) (ds : List Datum)
    {handles : List String} {values : List Value} (hnames : ∀ name ∈ handles, name ∈ names)
    (hv : RepresentsAll unit lowering.catalog stands handles values ds)
    (ht : Datum.AllTyped lowering.catalog handles ds) :
    unit.encodeAll (handles.map lowering.encoding) values =
      .ok (Datum.scaleAll lowering.catalog handles ds) := by
  cases handles with
  | nil => cases values <;> cases ds <;> rfl
  | cons name handles =>
    cases values with
    | nil => cases ds <;> cases hv
    | cons value values =>
      cases ds with
      | nil => cases hv
      | cons d ds =>
        have hd := encode_eq hs hstands d (hnames name List.mem_cons_self) hv.1 ht.1
        have hds := encodeAll_eq hs hstands ds (fun n hn => hnames n (List.mem_cons_of_mem _ hn))
          hv.2 ht.2
        rw [List.map_cons, SourceUnit.encodeAll, hd, hds]
        rfl
termination_by sizeOf ds

end

/-- A constructor accepts all fields that it should, and returns their bytes. -/
theorem construct_represents (hs : lowering.Serves unit names)
    (hstands : ∀ value made, stands value made → value.Covers made) (hname : name ∈ names)
    {variants : List Variant} {position : Nat} {v : Variant} {codec : Codec}
    {enumType text : String} {args : List Value} {parts : List Datum}
    (hkind : lowering.catalog.kindOf name = .enum variants) (hv : variants[position]? = some v)
    (hcodec : unit.codecFor? name = some codec) (hcodecName : codec.name = enumType ++ "Codec")
    (hfound : codec.constructors.findIdx? (fun c => c.name == text || c.member == text) =
      some position)
    (hargs : RepresentsAll unit lowering.catalog stands (v.fields.map Field.handle) args parts)
    (ht : Datum.AllTyped lowering.catalog (v.fields.map Field.handle) parts) :
    unit.construct enumType text args = .ok (.tagged v.discriminant
      (Datum.scaleAll lowering.catalog (v.fields.map Field.handle) parts)) := by
  obtain ⟨c, -, -, -, -, hchildren⟩ := hs.exists_codec hname hkind rfl
  have hbelow : ∀ child ∈ v.fields.map Field.handle, child ∈ names := fun child hchild =>
    hchildren child (List.mem_flatMap.2 ⟨v, List.mem_of_getElem? hv, hchild⟩)
  exact hs.construct_eq hname hkind hv hcodec hcodecName hfound hargs.length_eq.1
    (encodeAll_eq hs hstands parts hbelow hargs ht)

end Serves

end ScaleCalls.Solidity.Lowering
