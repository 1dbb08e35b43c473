import ScaleCalls.Scale.Bytes

/-!
# Values

The values that generated code works on. A struct is a record of its fields, an
enum value a record of tag and payload, an optional value a record that tells
whether it is there.

## Main definitions

- `Solidity.Value`
- `Value.option` — optional values
- `EvalFault` — why a value cannot be encoded
- `Value.field` — the field of a record
-/

namespace ScaleCalls.Solidity

/-- A value of an argument or of a field. -/
inductive Value where
  | bool (b : Bool)
  /-- An unsigned integer of any width. -/
  | uint (n : Nat)
  /-- A signed integer of any width. -/
  | int (i : Int)
  /-- A full word, for integers of 256 bits. -/
  | word (w : BitVec 256)
  | bytes (b : Bytes)
  | str (s : String)
  | list (items : List Value)
  /-- Fields by name, in order. -/
  | record (fields : List (String × Value))
  deriving Repr, BEq

/-- Why a value cannot be encoded. -/
inductive EvalFault where
  | unknownFunction (name : String)
  | unknownCodec (name : String)
  | unknownVariant (codec : String) (variant : String)
  /-- A function or constructor got the wrong number of arguments. -/
  | arity (name : String) (expected : Nat) (got : Nat)
  | typeMismatch (expected : String) (got : String)
  | missingField (name : String)
  /-- An operand that does not exist where it is used. -/
  | unbound (operand : String)
  | outOfRange (value : String) (bits : Nat)
  | boundExceeded (len : Nat) (bound : Nat)
  | lengthMismatch (expected : Nat) (got : Nat)
  deriving Repr, DecidableEq

def EvalFault.message : EvalFault → String
  | unknownFunction name => s!"unknown function: {name}"
  | unknownCodec name => s!"unknown codec library: {name}"
  | unknownVariant codec variant => s!"{codec} has no variant {variant}"
  | arity name expected got => s!"{name} takes {expected} arguments, got {got}"
  | typeMismatch expected got => s!"expected {expected}, got {got}"
  | missingField name => s!"missing field: {name}"
  | unbound operand => s!"unbound operand: {operand}"
  | outOfRange value bits => s!"value {value} does not fit in {bits} bits"
  | boundExceeded len bound => s!"length {len} exceeds bound {bound}"
  | lengthMismatch expected got => s!"expected {expected} elements, got {got}"

namespace Value

/-- How messages name the kind of a value. -/
def kind : Value → String
  | bool _ => "bool"
  | uint _ => "uint"
  | int _ => "int"
  | word _ => "word"
  | bytes _ => "bytes"
  | str _ => "string"
  | list _ => "list"
  | record _ => "record"

/-- An optional value. What stands in for a missing value is never read. -/
def option (value : Option Value) : Value :=
  .record [("isSome", .bool value.isSome), ("value", value.getD (.bool false))]

/-- A value of an enum: the byte of its variant and its encoded fields. -/
def tagged (discriminant : UInt8) (payload : Bytes) : Value :=
  .record [("tag", .uint discriminant.toNat), ("payload", .bytes payload)]

/-- The fault of a value that is of another kind. -/
def mismatch (expected : String) (value : Value) : EvalFault :=
  .typeMismatch expected value.kind

/-- The field of a record; of fields with one name the first. -/
def field (value : Value) (name : String) : Except EvalFault Value :=
  match value with
  | .record fields =>
    match fields.lookup name with
    | some v => .ok v
    | none => .error (.missingField name)
  | other => .error (other.mismatch "record")

theorem sizeOf_lookup {fields : List (String × Value)} {name : String} {v : Value}
    (h : fields.lookup name = some v) : sizeOf v < sizeOf fields := by
  induction fields with
  | nil => simp at h
  | cons f fields ih =>
    obtain ⟨key, value⟩ := f
    rw [List.lookup_cons] at h
    split at h
    · cases h
      simp
      omega
    · have := ih h
      simp
      omega

/-- A field is smaller than its record. -/
theorem sizeOf_field {value v : Value} {name : String} (h : value.field name = .ok v) :
    sizeOf v < sizeOf value := by
  unfold field at h
  split at h
  · rename_i fields
    split at h
    · rename_i hv
      cases h
      have := sizeOf_lookup hv
      simp
      omega
    · cases h
  · cases h

end Value

end ScaleCalls.Solidity
