import Mathlib.Data.List.Nodup
import ScaleCalls.Proofs.Outcome
import ScaleCalls.Solidity.Evaluate
import ScaleCalls.Solidity.Lowering

/-!
# What running generated code amounts to

Records, sequences, constructors and calls all come down to the same thing: some
values, each in an encoding of its own, one after the other. `SourceUnit.encodeAll` is
that, and the lemmas say for each construct which values and encodings it works on.

## Main definitions

- `SourceUnit.encodeBody` — a value in the encoding of a codec library
- `SourceUnit.encodeAll` — values in their encodings, one after the other
- `Value.Covers` — a record that has the fields of another
- `SourceUnit.constructor?`, `SourceUnit.make` — the two parts of making a value of an enum

## Main statements

- `SourceUnit.encode_codec` — what a codec library does with a value
- `SourceUnit.encode_record`, `encode_sequence`, `encode_tagged`, `encode_some`
- `SourceUnit.call_eq`, `SourceUnit.construct_eq`, `SourceUnit.construct_eq_make`
-/

namespace ScaleCalls.Solidity

/-- A value has every field of another, wherever it lists it. -/
def Value.Covers (value made : Value) : Prop :=
  ∀ name v, made.field name = .ok v → value.field name = .ok v

theorem Value.field_record {entries : List (String × Value)} {name : String} {v : Value} :
    (Value.record entries).field name = .ok v ↔ entries.lookup name = some v := by
  unfold field
  dsimp only
  cases entries.lookup name <;> simp

theorem lookup_zip_of_nodup {names : List String} (hnodup : names.Nodup) {values : List Value}
    {name : String} {v : Value} (h : (name, v) ∈ names.zip values) :
    (names.zip values).lookup name = some v := by
  induction names generalizing values with
  | nil => simp at h
  | cons first rest ih =>
    cases values with
    | nil => simp at h
    | cons value values =>
      rw [List.zip_cons_cons] at h ⊢
      rw [List.lookup_cons]
      rcases List.mem_cons.1 h with heq | hmem
      · cases heq
        simp
      · have hne : name ≠ first := by
          rintro rfl
          exact (List.nodup_cons.1 hnodup).1 (List.of_mem_zip hmem).1
        rw [beq_eq_false_iff_ne.2 hne]
        exact ih (List.nodup_cons.1 hnodup).2 hmem

namespace SourceUnit

variable {unit : SourceUnit} {name : String} {codec : Codec} {value : Value}

/-- The bytes of a value that a codec library encodes in this way. -/
def encodeBody (unit : SourceUnit) (value : Value) : CodecBody → Except EvalFault Bytes
  | .record fields => do
    let parts ← fields.mapM fun p => do unit.encode p.encoding (← value.field p.name)
    return parts.flatten
  | .tagged _ => encodeTagged value
  | .sequence elem prefixed bound len =>
    match value with
    | .list items => do
      checkLength bound len items.length
      let parts ← items.mapM (unit.encode elem)
      return lengthBytes prefixed items.length ++ parts.flatten
    | other => .error (other.mismatch "list")
  | .optional inner => do
    if ← isSome value then
      return Scale.option (some (← unit.encode inner (← value.field "value")))
    else return Scale.option none

/-- A codec library encodes a value as its body says. The evidence that the parts of the value
are smaller plays no role in this. -/
theorem encode_codec (hcodec : unit.codec? name = some codec) :
    unit.encode (.codec name) value = unit.encodeBody value codec.body := by
  rw [encode]
  cases hbody : codec.body with
  | record fields =>
    simp only [hcodec, hbody, encodeBody]
    congr 2
    funext p
    split <;> simp only [*] <;> rfl
  | tagged tag => simp only [hcodec, hbody, encodeBody]
  | sequence elem prefixed bound len => cases value <;> simp [hcodec, hbody, encodeBody]
  | optional inner =>
    simp only [hcodec, hbody, encodeBody]
    congr 1
    funext b
    cases b with
    | false => rfl
    | true =>
      simp only [if_true]
      split <;> simp only [*] <;> rfl

/-- Values in as many encodings, one after the other. -/
def encodeAll (unit : SourceUnit) : List Encoding → List Value → Except EvalFault Bytes
  | encoding :: encodings, value :: values => do
    return (← unit.encode encoding value) ++ (← unit.encodeAll encodings values)
  | _, _ => .ok []

theorem mapM_encode (params : List Param) (values : List Value)
    {lookup : String → Except EvalFault Value} (hlength : params.length = values.length)
    (hlookup : ∀ p v, (p, v) ∈ params.zip values → lookup p.name = .ok v) :
    (do
      let parts ← params.mapM fun p => do unit.encode p.encoding (← lookup p.name)
      return parts.flatten) = unit.encodeAll (params.map Param.encoding) values := by
  induction params generalizing values with
  | nil => rfl
  | cons p params ih =>
    cases values with
    | nil => simp at hlength
    | cons v values =>
      have hfirst : lookup p.name = .ok v := hlookup p v (by simp)
      have hrest := ih values (by simpa using hlength)
        (fun q w hmem => hlookup q w (List.mem_cons_of_mem _ hmem))
      rw [List.map_cons, encodeAll, ← hrest]
      simp [hfirst, bind_assoc]
      rfl

/-- A record is the values of its fields. -/
theorem encode_record {params : List Param} (hcodec : unit.codec? name = some codec)
    (hbody : codec.body = .record params) {values : List Value}
    (hlength : params.length = values.length)
    (hfields : ∀ p v, (p, v) ∈ params.zip values → value.field p.name = .ok v) :
    unit.encode (.codec name) value = unit.encodeAll (params.map Param.encoding) values := by
  rw [encode_codec hcodec, hbody]
  exact mapM_encode params values hlength hfields

theorem mapM_replicate (encoding : Encoding) (values : List Value) :
    (do
      let parts ← values.mapM (unit.encode encoding)
      return parts.flatten) =
      unit.encodeAll (List.replicate values.length encoding) values := by
  induction values with
  | nil => rfl
  | cons v values ih =>
    rw [List.length_cons, List.replicate_succ, encodeAll, ← ih]
    simp

/-- A sequence is its elements behind their number, if the codec asks for it. -/
theorem encode_sequence {elem : Encoding} {counted : Bool} {bound len : Option Nat}
    (hcodec : unit.codec? name = some codec) (hbody : codec.body = .sequence elem counted bound len)
    {items : List Value} (hcount : checkLength bound len items.length = .ok ()) :
    unit.encode (.codec name) (.list items) =
      (unit.encodeAll (List.replicate items.length elem) items).map
        (lengthBytes counted items.length ++ ·) := by
  rw [← mapM_replicate, encode_codec hcodec, hbody, encodeBody]
  simp only [hcount]
  cases items.mapM (unit.encode elem) <;> rfl

theorem isSome_eq {b : Bool} (h : value.field "isSome" = .ok (.bool b)) :
    isSome value = .ok b := by
  rw [isSome, h]
  rfl

theorem encode_none {inner : Encoding} (hcodec : unit.codec? name = some codec)
    (hbody : codec.body = .optional inner) (hvalue : value.Covers (.option none)) :
    unit.encode (.codec name) value = .ok [0] := by
  rw [encode_codec hcodec, hbody, encodeBody, isSome_eq (hvalue "isSome" _ rfl)]
  rfl

theorem encode_some {inner : Encoding} {v : Value} (hcodec : unit.codec? name = some codec)
    (hbody : codec.body = .optional inner) (hvalue : value.Covers (.option (some v))) :
    unit.encode (.codec name) value = (unit.encode inner v).map (1 :: ·) := by
  have hv : value.field "value" = .ok v := hvalue _ _ rfl
  rw [encode_codec hcodec, hbody, encodeBody, isSome_eq (hvalue "isSome" _ rfl), hv]
  change (do return Scale.option (some (← unit.encode inner v))) = _
  cases unit.encode inner v <;> rfl

/-- A value of an enum is the byte of its variant and its payload as it is. -/
theorem encode_tagged {tag : String} {discriminant : UInt8} {payload : Bytes}
    (hcodec : unit.codec? name = some codec) (hbody : codec.body = .tagged tag)
    (hvalue : value.Covers (.tagged discriminant payload)) :
    unit.encode (.codec name) value = .ok (discriminant :: payload) := by
  have htag : value.field "tag" = .ok (.uint discriminant.toNat) := hvalue _ _ rfl
  have hpayload : value.field "payload" = .ok (.bytes payload) := hvalue _ _ rfl
  rw [encode_codec hcodec, hbody, encodeBody, encodeTagged, htag]
  simp only [hpayload]
  change (if discriminant.toNat < 256 then _ else _) = _
  rw [if_pos discriminant.toNat_lt]
  change Except.ok (UInt8.ofNat discriminant.toNat :: payload) = _
  rw [UInt8.ofNat_toNat]

theorem encode_scalar {encoding : Encoding} (h : ∀ name, encoding ≠ .codec name) :
    unit.encode encoding value = encodeScalar encoding value := by
  rw [encode]
  exact h

theorem operand_param {env : List (String × Value)} {v : Value} (h : env.lookup name = some v) :
    operand env (.param name) = .ok v := by
  rw [operand, h]

/-- Parameters in their encodings are the values that they are bound to. -/
theorem exprs_encodeParam (unit : SourceUnit) (env : List (String × Value))
    (params : List Param) (values : List Value) (hlength : params.length = values.length)
    (henv : ∀ p v, (p, v) ∈ params.zip values → env.lookup p.name = some v) :
    unit.exprs env (params.map Lowering.encodeParam) =
      unit.encodeAll (params.map Param.encoding) values := by
  induction params generalizing values with
  | nil => simp [exprs, encodeAll]
  | cons p params ih =>
    cases values with
    | nil => simp at hlength
    | cons v values =>
      have hrest := ih values (by simpa using hlength)
        (fun q w hmem => henv q w (List.mem_cons_of_mem _ hmem))
      rw [List.map_cons, List.map_cons, exprs, encodeAll, hrest, Lowering.encodeParam, expr,
        operand_param (henv p v (by simp))]
      rfl

theorem mem_zip_names {params : List Param} {values : List Value} {p : Param} {v : Value}
    (h : (p, v) ∈ params.zip values) : (p.name, v) ∈ (params.map Param.name).zip values := by
  rw [List.zip_map_left]
  exact List.mem_map_of_mem h

/-- A call is its two index bytes and its arguments in their encodings. -/
theorem call_eq {f : CallFunction} (hf : unit.function? f.name = some f)
    (hbody : f.body = .concat (.callIndex f.index :: f.params.map Lowering.encodeParam))
    (hnodup : (f.params.map Param.name).Nodup) {args : List Value}
    (hlength : f.params.length = args.length) :
    unit.call f.name args =
      (unit.encodeAll (f.params.map Param.encoding) args).map
        (Scale.callIndex f.index.group f.index.call ++ ·) := by
  have hparts := exprs_encodeParam unit ((f.params.map Param.name).zip args) f.params args
    hlength fun p v hmem => lookup_zip_of_nodup hnodup (mem_zip_names hmem)
  rw [call, hf]
  simp only [bind, if_pos hlength, hbody]
  change unit.expr _ (.concat (.callIndex f.index :: _)) = _
  rw [expr, exprs, hparts, expr]
  cases unit.encodeAll (f.params.map Param.encoding) args <;> rfl

/-- A constructor gives the byte of its variant and its arguments in their encodings. -/
theorem construct_eq {enumType variant : String} {c : Constructor}
    (hcodec : unit.codec? (enumType ++ "Codec") = some codec)
    (hc : (codec.constructors.find? fun c => c.name == variant || c.member == variant) = some c)
    (hpayload : c.payload = .concat (c.params.map Lowering.encodeParam))
    (hnodup : (c.params.map Param.name).Nodup) {args : List Value}
    (hlength : c.params.length = args.length) :
    unit.construct enumType variant args =
      (unit.encodeAll (c.params.map Param.encoding) args).map (.tagged c.discriminant) := by
  have hparts := exprs_encodeParam unit ((c.params.map Param.name).zip args) c.params args
    hlength fun p v hmem => lookup_zip_of_nodup hnodup (mem_zip_names hmem)
  rw [construct, hcodec]
  simp only [hc, bind, if_pos hlength, hpayload]
  change (do return Value.tagged c.discriminant (← unit.expr _ (.concat _))) = _
  rw [expr, hparts]
  cases unit.encodeAll (c.params.map Param.encoding) args <;> rfl

/-! ## Which constructor makes a value -/

/-- The constructor that makes the values of a variant: of those that go by its name, or by
its member of the tag enum, the first. -/
def constructor? (unit : SourceUnit) (enumType variant : String) :
    Except EvalFault Constructor :=
  match unit.codec? (enumType ++ "Codec") with
  | none => .error (.unknownCodec (enumType ++ "Codec"))
  | some codec =>
    match codec.constructors.find? fun c => c.name == variant || c.member == variant with
    | none => .error (.unknownVariant (enumType ++ "Codec") variant)
    | some c => .ok c

/-- The value that a constructor makes of some arguments. -/
def make (unit : SourceUnit) (c : Constructor) (args : List Value) : Except EvalFault Value := do
  return .tagged c.discriminant (← unit.expr (← bind c.name c.params args) c.payload)

/-- A value is made by the constructor that its variant selects. -/
theorem construct_eq_make (unit : SourceUnit) (enumType variant : String) (args : List Value) :
    unit.construct enumType variant args =
      (unit.constructor? enumType variant >>= fun c => unit.make c args) := by
  rw [construct, constructor?]
  cases unit.codec? (enumType ++ "Codec") with
  | none => rfl
  | some codec =>
    dsimp only
    cases codec.constructors.find? fun c => c.name == variant || c.member == variant with
    | none => rfl
    | some c => rfl

end SourceUnit

end ScaleCalls.Solidity
