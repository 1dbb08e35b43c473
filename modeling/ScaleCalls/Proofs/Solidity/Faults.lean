import ScaleCalls.Proofs.Solidity.Evaluate

/-!
# What can go wrong in closed code

Evaluation looks codec libraries up by name, and operands among the parameters. In code
where every library and every operand that is mentioned exists, none of these look-ups
fails, whatever the values are: the only faults left are those of the values.

## Main definitions

- `Expr.uses` — the encodings of an expression with the operands that they are applied to
- `SourceUnit.Resolves` — the codec library of an encoding exists
- `EvalFault.OfValue` — a fault that lies in a value

## Main statements

- `SourceUnit.failsBelow_of_codec` — a codec library fails because of its value or of a part
- `SourceUnit.ofValue_of_encode` — a value in an encoding
- `SourceUnit.ofValue_of_expr` — an expression under some parameters
-/

namespace ScaleCalls.Solidity

/-- The fault lies in a value: it is of the wrong kind, out of range, or of the wrong length. -/
inductive EvalFault.OfValue : EvalFault → Prop
  | typeMismatch (expected got : String) : OfValue (.typeMismatch expected got)
  | missingField (name : String) : OfValue (.missingField name)
  | outOfRange (value : String) (bits : Nat) : OfValue (.outOfRange value bits)
  | boundExceeded (len bound : Nat) : OfValue (.boundExceeded len bound)
  | lengthMismatch (expected got : Nat) : OfValue (.lengthMismatch expected got)

mutual

/-- The encodings of an expression, in order, with the operands that they are applied to. -/
def Expr.uses : Expr → List (Encoding × Operand)
  | .callIndex _ => []
  | .encode encoding operand => [(encoding, operand)]
  | .concat parts => Expr.usesAll parts

def Expr.usesAll : List Expr → List (Encoding × Operand)
  | [] => []
  | part :: parts => part.uses ++ Expr.usesAll parts

end

/-- The encodings that the body of a codec library applies, in order. -/
def CodecBody.encodings : CodecBody → List Encoding
  | .record fields => fields.map Param.encoding
  | .tagged _ => []
  | .sequence elem _ _ _ => [elem]
  | .optional inner => [inner]

namespace SourceUnit

/-- If an encoding is that of a codec library, the library exists. -/
def Resolves (unit : SourceUnit) (encoding : Encoding) : Prop :=
  ∀ name, encoding = .codec name → ∃ codec, unit.codec? name = some codec

/-- The codec libraries apply only libraries that exist. -/
def BodiesResolve (unit : SourceUnit) : Prop :=
  ∀ codec ∈ unit.codecs, ∀ encoding ∈ codec.body.encodings, unit.Resolves encoding

variable {unit : SourceUnit} {name : String} {codec : Codec} {value : Value} {fault : EvalFault}

theorem ofValue_of_field (h : value.field name = .error fault) :
    fault.OfValue := by
  unfold Value.field at h
  split at h
  · split at h
    · cases h
    · cases h
      exact .missingField name
  · cases h
    exact .typeMismatch _ _

theorem ofValue_of_encodeUint {bits n : Nat} (h : encodeUint bits n = .error fault) :
    fault.OfValue := by
  unfold encodeUint at h
  split at h <;> cases h
  exact .outOfRange _ _

theorem ofValue_of_encodeInt {bits : Nat} {i : Int} (h : encodeInt bits i = .error fault) :
    fault.OfValue := by
  unfold encodeInt at h
  split at h <;> cases h
  exact .outOfRange _ _

theorem ofValue_of_encodeCompact {width : CompactWidth} {n : Nat}
    (h : encodeCompact width n = .error fault) : fault.OfValue := by
  unfold encodeCompact at h
  split at h <;> cases h
  exact .outOfRange _ _

theorem ofValue_of_exactly {len : Nat} {b : Bytes} (h : exactly len b = .error fault) :
    fault.OfValue := by
  unfold exactly at h
  split at h <;> cases h
  exact .lengthMismatch _ _

theorem ofValue_of_encodeScalar {encoding : Encoding}
    (h : encodeScalar encoding value = .error fault) : fault.OfValue := by
  unfold encodeScalar at h
  split at h
  · cases h
  · exact ofValue_of_encodeUint h
  · cases h
  · cases h
  · exact ofValue_of_encodeInt h
  · exact ofValue_of_encodeCompact h
  · cases h
  · cases h
  · exact ofValue_of_exactly h
  · rename_i b
    cases hb : exactly 32 b with
    | ok _ => rw [hb] at h; cases h
    | error e =>
      rw [hb] at h
      cases h
      exact ofValue_of_exactly hb
  · exact ofValue_of_exactly h
  · cases h
    exact .typeMismatch _ _

theorem ofValue_of_encodeTagged (h : encodeTagged value = .error fault) : fault.OfValue := by
  unfold encodeTagged at h
  obtain hfield | ⟨tag, -, h⟩ := bind_eq_error.1 h
  · exact ofValue_of_field hfield
  · dsimp only at h
    split at h
    · split at h
      · obtain hpure | ⟨tag, -, h⟩ := bind_eq_error.1 h
        · cases hpure
        · obtain hfield | ⟨payload, -, h⟩ := bind_eq_error.1 h
          · exact ofValue_of_field hfield
          · split at h <;> cases h
            exact .typeMismatch _ _
      · cases h
        exact .outOfRange _ _
    · cases h
      exact .typeMismatch _ _

theorem ofValue_of_isSome (h : isSome value = .error fault) : fault.OfValue := by
  unfold isSome at h
  obtain hfield | ⟨v, -, h⟩ := bind_eq_error.1 h
  · exact ofValue_of_field hfield
  · split at h <;> cases h
    exact .typeMismatch _ _

theorem ofValue_of_checkLength {bound len : Option Nat} {count : Nat}
    (h : checkLength bound len count = .error fault) : fault.OfValue := by
  unfold checkLength at h
  split at h
  · cases h
    exact .lengthMismatch _ _
  · split at h <;> cases h
    exact .boundExceeded _ _

theorem mem_codecs_of_codec? (h : unit.codec? name = some codec) :
    codec ∈ unit.codecs :=
  List.mem_of_find?_eq_some h

/-- A smaller part of a value fails in one of some encodings, with this fault. -/
def FailsBelow (unit : SourceUnit) (value : Value) (encodings : List Encoding)
    (fault : EvalFault) : Prop :=
  ∃ part : Value, sizeOf part < sizeOf value ∧
    ∃ encoding ∈ encodings, unit.encode encoding part = .error fault

/-- The field of a record is missing, or its value cannot be encoded. -/
theorem failsBelow_of_record {params : List Param} (hcodec : unit.codec? name = some codec)
    (hbody : codec.body = .record params)
    (h : unit.encode (.codec name) value = .error fault) :
    fault.OfValue ∨ unit.FailsBelow value codec.body.encodings fault := by
  rw [encode_codec hcodec, hbody] at h
  obtain hparts | ⟨parts, -, h⟩ := bind_eq_error.1 h
  · obtain ⟨p, hp, hstep⟩ := exists_of_mapM_eq_error hparts
    obtain hfield | ⟨v, hfield, hstep⟩ := bind_eq_error.1 hstep
    · exact .inl (ofValue_of_field hfield)
    · refine .inr ⟨v, Value.sizeOf_field hfield, p.encoding, ?_, hstep⟩
      rw [hbody]
      exact List.mem_map_of_mem hp
  · cases h

/-- A value is no list or one of the wrong length, or an item of it cannot be encoded. -/
theorem failsBelow_of_sequence {elem : Encoding} {counted : Bool} {bound len : Option Nat}
    (hcodec : unit.codec? name = some codec) (hbody : codec.body = .sequence elem counted bound len)
    (h : unit.encode (.codec name) value = .error fault) :
    fault.OfValue ∨ unit.FailsBelow value codec.body.encodings fault := by
  rw [encode_codec hcodec, hbody] at h
  cases value with
  | list items =>
    obtain hlength | ⟨-, -, h⟩ := bind_eq_error.1 h
    · exact .inl (ofValue_of_checkLength hlength)
    · obtain hparts | ⟨parts, -, h⟩ := bind_eq_error.1 h
      · obtain ⟨item, hitem, hstep⟩ := exists_of_mapM_eq_error hparts
        have hsize : sizeOf item < sizeOf (Value.list items) := by
          have := List.sizeOf_lt_of_mem hitem
          simp
          omega
        refine .inr ⟨item, hsize, elem, ?_, hstep⟩
        rw [hbody]
        exact List.mem_singleton.2 rfl
      · cases h
  | _ =>
    cases h
    exact .inl (.typeMismatch _ _)

/-- A value does not say whether there is one inside, or that one is missing, or it cannot
be encoded. -/
theorem failsBelow_of_optional {inner : Encoding} (hcodec : unit.codec? name = some codec)
    (hbody : codec.body = .optional inner)
    (h : unit.encode (.codec name) value = .error fault) :
    fault.OfValue ∨ unit.FailsBelow value codec.body.encodings fault := by
  rw [encode_codec hcodec, hbody] at h
  obtain hsome | ⟨b, -, h⟩ := bind_eq_error.1 h
  · exact .inl (ofValue_of_isSome hsome)
  · split at h
    · obtain hfield | ⟨v, hfield, h⟩ := bind_eq_error.1 h
      · exact .inl (ofValue_of_field hfield)
      · obtain hinner | ⟨bytes, -, h⟩ := bind_eq_error.1 h
        · refine .inr ⟨v, Value.sizeOf_field hfield, inner, ?_, hinner⟩
          rw [hbody]
          exact List.mem_singleton.2 rfl
        · cases h
    · cases h

theorem failsBelow_of_codec (hcodec : unit.codec? name = some codec)
    (h : unit.encode (.codec name) value = .error fault) :
    fault.OfValue ∨ unit.FailsBelow value codec.body.encodings fault := by
  cases hbody : codec.body with
  | record params => exact hbody ▸ failsBelow_of_record hcodec hbody h
  | tagged tag =>
    rw [encode_codec hcodec, hbody] at h
    exact .inl (ofValue_of_encodeTagged h)
  | sequence elem counted bound len => exact hbody ▸ failsBelow_of_sequence hcodec hbody h
  | optional inner => exact hbody ▸ failsBelow_of_optional hcodec hbody h

/-- Where all libraries apply only libraries that exist, encoding a value can only fail
because of the value. The induction is on the value: libraries are applied to parts of it. -/
theorem ofValue_of_encode (hunit : unit.BodiesResolve) (value : Value) {encoding : Encoding}
    (hencoding : unit.Resolves encoding) (h : unit.encode encoding value = .error fault) :
    fault.OfValue := by
  by_cases hscalar : ∀ name, encoding ≠ .codec name
  · rw [encode_scalar hscalar] at h
    exact ofValue_of_encodeScalar h
  · simp only [ne_eq, not_forall, not_not] at hscalar
    obtain ⟨name, rfl⟩ := hscalar
    obtain ⟨codec, hcodec⟩ := hencoding name rfl
    obtain hvalue | ⟨part, hsize, encoding, hmem, hpart⟩ := failsBelow_of_codec hcodec h
    · exact hvalue
    · exact ofValue_of_encode hunit part
        (hunit codec (mem_codecs_of_codec? hcodec) encoding hmem) hpart
termination_by sizeOf value

mutual

/-- An expression whose operands are bound and whose libraries exist can only fail
because of a value. -/
theorem ofValue_of_expr (hunit : unit.BodiesResolve) {env : List (String × Value)} (body : Expr)
    (huses : ∀ use ∈ body.uses, unit.Resolves use.1 ∧
      ∃ name v, use.2 = .param name ∧ env.lookup name = some v)
    (h : unit.expr env body = .error fault) : fault.OfValue := by
  cases body with
  | callIndex index =>
    rw [expr] at h
    cases h
  | encode encoding operand =>
    obtain ⟨hencoding, name, v, hparam, hbound⟩ := huses (encoding, operand) (by simp [Expr.uses])
    dsimp only at hparam
    rw [expr, hparam, SourceUnit.operand, hbound] at h
    exact ofValue_of_encode hunit v hencoding h
  | concat parts =>
    rw [expr] at h
    exact ofValue_of_exprs hunit parts (by simpa [Expr.uses] using huses) h

theorem ofValue_of_exprs (hunit : unit.BodiesResolve) {env : List (String × Value)}
    (parts : List Expr)
    (huses : ∀ use ∈ Expr.usesAll parts, unit.Resolves use.1 ∧
      ∃ name v, use.2 = .param name ∧ env.lookup name = some v)
    (h : unit.exprs env parts = .error fault) : fault.OfValue := by
  cases parts with
  | nil =>
    rw [exprs] at h
    cases h
  | cons part parts =>
    rw [exprs] at h
    have hpart : ∀ use ∈ part.uses, use ∈ Expr.usesAll (part :: parts) := fun use huse =>
      List.mem_append_left _ huse
    have hparts : ∀ use ∈ Expr.usesAll parts, use ∈ Expr.usesAll (part :: parts) :=
      fun use huse => List.mem_append_right _ huse
    obtain hfirst | ⟨b, -, h⟩ := bind_eq_error.1 h
    · exact ofValue_of_expr hunit part (fun use huse => huses use (hpart use huse)) hfirst
    · obtain hrest | ⟨bs, -, h⟩ := bind_eq_error.1 h
      · exact ofValue_of_exprs hunit parts (fun use huse => huses use (hparts use huse)) hrest
      · cases h

end

end SourceUnit

end ScaleCalls.Solidity
