import ScaleCalls.Proofs.Scale.Datum
import ScaleCalls.Proofs.Solidity.Evaluate

/-!
# Values that generated code works on

Generated code holds a value of a type as a list, as a record of its fields under the
names that the codec library gives them, or, for an enum, as what a constructor of
this library returns. `Represents` says which values of generated code stand for a
value of a type.

How closely a record must follow the one that lists just its fields, in order, is left
open: `Eq` asks for this very record, `Value.Covers` for any record that has all of
the fields.

## Main definitions

- `Holds` — scalars, `Represents`, `RepresentsAll` — values of all types
- `Value.numeric` — a value in which words are written as numbers

## Main statements

- `encode_of_holds` — a scalar is encoded by its bytes
-/

namespace ScaleCalls.Solidity

/-- A value holds a scalar of a kind. Integers of 256 bits may come as words. -/
inductive Holds : TypeKind → Value → Scalar → Prop
  | bool {kind : TypeKind} (b : Bool) : Holds kind (.bool b) (.bool b)
  | nat {kind : TypeKind} (n : Nat) : Holds kind (.uint n) (.nat n)
  | word (w : BitVec 256) : Holds (.primitive .u256) (.word w) (.nat w.toNat)
  | int {kind : TypeKind} (i : Int) : Holds kind (.int i) (.int i)
  | bytes {kind : TypeKind} (b : Bytes) : Holds kind (.bytes b) (.bytes b)
  | text {kind : TypeKind} (s : String) : Holds kind (.str s) (.text s)

mutual

/-- A value of generated code stands for a value of the type of this name. -/
def Represents (unit : SourceUnit) (catalog : Catalog) (stands : Value → Value → Prop) :
    String → Value → Datum → Prop
  | name, value, .scalar s => Holds (catalog.kindOf name) value s
  | name, value, .sequence items =>
    ∃ elem values, (catalog.kindOf name).element? = some elem ∧ value = .list values ∧
      RepresentsAll unit catalog stands (List.replicate items.length elem) values items
  | _, value, .none => stands value (.option none)
  | name, value, .some d =>
    ∃ elem inner, (catalog.kindOf name).element? = some elem ∧
      Represents unit catalog stands elem inner d ∧ stands value (.option (some inner))
  | name, value, .record parts =>
    ∃ fields codec params values, catalog.kindOf name = .record fields ∧
      unit.codecFor? name = some codec ∧ codec.body = .record params ∧
      RepresentsAll unit catalog stands (fields.map Field.handle) values parts ∧
      stands value (.record ((params.map Param.name).zip values))
  | name, value, .variant position parts =>
    ∃ variants v codec enumType text args made, catalog.kindOf name = .enum variants ∧
      variants[position]? = some v ∧ unit.codecFor? name = some codec ∧
      codec.name = enumType ++ "Codec" ∧
      codec.constructors.findIdx? (fun c => c.name == text || c.member == text) = some position ∧
      RepresentsAll unit catalog stands (v.fields.map Field.handle) args parts ∧
      unit.construct enumType text args = .ok made ∧ stands value made

/-- Several values stand for as many values of the types of these names. -/
def RepresentsAll (unit : SourceUnit) (catalog : Catalog) (stands : Value → Value → Prop) :
    List String → List Value → List Datum → Prop
  | [], [], [] => True
  | name :: names, value :: values, d :: ds =>
    Represents unit catalog stands name value d ∧ RepresentsAll unit catalog stands names values ds
  | _, _, _ => False

end

mutual

/-- A value in which every word is written as the number that it is. -/
def Value.numeric : Value → Value
  | .word w => .uint w.toNat
  | .list items => .list (numericAll items)
  | .record entries => .record (numericEntries entries)
  | value => value

/-- Values in which words are written as numbers. -/
def Value.numericAll : List Value → List Value
  | [] => []
  | value :: values => value.numeric :: numericAll values

/-- Fields in which words are written as numbers. -/
def Value.numericEntries : List (String × Value) → List (String × Value)
  | [] => []
  | (name, value) :: entries => (name, value.numeric) :: numericEntries entries

end

theorem Value.numericAll_eq (values : List Value) : numericAll values = values.map numeric := by
  induction values with
  | nil => rfl
  | cons value values ih => rw [numericAll, ih, List.map_cons]

theorem Value.numericEntries_zip (names : List String) (values : List Value) :
    numericEntries (names.zip values) = names.zip (values.map numeric) := by
  induction names generalizing values with
  | nil => rfl
  | cons name names ih =>
    cases values with
    | nil => rfl
    | cons value values =>
      rw [List.zip_cons_cons, numericEntries, ih, List.map_cons, List.zip_cons_cons]

variable {unit : SourceUnit} {catalog : Catalog} {stands : Value → Value → Prop}

theorem RepresentsAll.length_eq {names : List String} {values : List Value} {ds : List Datum}
    (h : RepresentsAll unit catalog stands names values ds) :
    names.length = values.length ∧ ds.length = values.length := by
  induction names generalizing values ds with
  | nil => cases values <;> cases ds <;> first | exact ⟨rfl, rfl⟩ | cases h
  | cons name names ih =>
    cases values with
    | nil => cases ds <;> cases h
    | cons value values =>
      cases ds with
      | nil => cases h
      | cons d ds =>
        obtain ⟨hnames, hds⟩ := ih h.2
        exact ⟨congrArg (· + 1) hnames, congrArg (· + 1) hds⟩

theorem primitive_of_unsigned {kind : Primitive} {bits : Nat} (hbits : kind.bits? = some bits)
    (hsign : kind.isSigned = false) : (Lowering.primitive kind).2 = .uint bits := by
  cases kind <;> cases hbits <;> first | rfl | cases hsign

theorem primitive_of_signed {kind : Primitive} {bits : Nat} (hbits : kind.bits? = some bits)
    (hsign : kind.isSigned) : (Lowering.primitive kind).2 = .int bits := by
  cases kind <;> cases hbits <;> first | rfl | cases hsign

/-- The encoding of a type, read off its kind. -/
theorem encoding_eq (lowering : Lowering) (name : String) :
    lowering.encoding name =
      match lowering.catalog.kindOf name with
      | .primitive kind => (Lowering.primitive kind).2
      | .fixedBytes len => .fixedBytes len
      | .compact width => .compact width
      | .unsupported _ => .bytes
      | _ => .codec (lowering.codecName name) := by
  unfold Lowering.encoding Catalog.kindOf
  cases lowering.catalog.get? name with
  | none => rfl
  | some d =>
    dsimp only
    cases d.kind <;> rfl

theorem encodeUint_eq {bits n : Nat} (h : n < 2 ^ bits) :
    encodeUint bits n = .ok (Scale.uint n bits) := by
  rw [encodeUint, Nat.pow_eq, if_neg]
  omega

theorem encodeInt_eq {bits : Nat} {i : Int} (h : -2 ^ (bits - 1) ≤ i ∧ i < 2 ^ (bits - 1)) :
    encodeInt bits i = .ok (Scale.int i bits) := by
  rw [encodeInt, Int.pow_eq, if_neg]
  omega

theorem encodeCompact_eq {width : CompactWidth} {n : Nat} (h : n < 2 ^ width.bits) :
    encodeCompact width n = .ok (Scale.compactOf n) := by
  rw [encodeCompact, if_neg, Scale.compact_eq_compactOf]
  rw [Scale.compactMax, Nat.pow_eq]
  omega

theorem exactly_eq {len : Nat} {b : Bytes} (h : b.length = len) : exactly len b = .ok b := by
  rw [exactly, if_pos h]

theorem bytes_eq (b : Bytes) : Scale.bytes b = Scale.compactOf b.length ++ b := by
  rw [Scale.bytes, Scale.compact_eq_compactOf]

/-- A scalar is encoded by its bytes. -/
theorem encode_of_holds (lowering : Lowering) {name : String} {value : Value} {s : Scalar}
    (hs : s.Typed (lowering.catalog.kindOf name))
    (hv : Holds (lowering.catalog.kindOf name) value s) :
    unit.encode (lowering.encoding name) value =
      .ok (s.scale (lowering.catalog.kindOf name)) := by
  have hencoding := encoding_eq lowering name
  generalize lowering.catalog.kindOf name = kind at *
  cases hs with
  | bool b =>
    cases hv
    rw [hencoding, SourceUnit.encode_scalar (by simp [Lowering.primitive])]
    rfl
  | nat hbits hsign hn =>
    rw [Scalar.scale_nat hbits, hencoding.trans (primitive_of_unsigned hbits hsign),
      SourceUnit.encode_scalar (by simp)]
    cases hv with
    | nat n => exact encodeUint_eq hn
    | word w =>
      cases hbits
      rfl
  | int hbits hsign hi =>
    rw [Scalar.scale_int hbits, hencoding.trans (primitive_of_signed hbits hsign),
      SourceUnit.encode_scalar (by simp)]
    cases hv
    rw [encodeScalar, encodeInt_eq hi]
  | compact hn =>
    rw [hencoding, SourceUnit.encode_scalar (by simp)]
    cases hv
    exact encodeCompact_eq hn
  | bytes hlength =>
    rw [hencoding, SourceUnit.encode_scalar (by simp [Lowering.primitive])]
    cases hv
    exact congrArg Except.ok (bytes_eq _)
  | text hlength =>
    rw [hencoding, SourceUnit.encode_scalar (by simp [Lowering.primitive])]
    cases hv
    exact congrArg Except.ok (bytes_eq _)
  | accountId hlength =>
    rw [hencoding, SourceUnit.encode_scalar (by simp [Lowering.primitive])]
    cases hv
    exact exactly_eq hlength
  | address hlength =>
    rw [hencoding, SourceUnit.encode_scalar (by simp [Lowering.primitive])]
    cases hv
    exact congrArg (Except.map Scale.multiAddress) (exactly_eq hlength)
  | fixedBytes hlength =>
    rw [hencoding, SourceUnit.encode_scalar (by simp)]
    cases hv
    exact exactly_eq hlength

end ScaleCalls.Solidity
