import ScaleCalls.Solidity.Unit
import ScaleCalls.Solidity.Value

/-!
# Running generated code

The bytes that the generated code returns for given values, computed from the
source unit. A codec that is applied to a value applies other codecs only to the
fields and elements of this value, so evaluation ends for every unit.

## Main definitions

- `SourceUnit.encode` — a value in an encoding
- `SourceUnit.call` — the bytes of a call
- `SourceUnit.applyCodec` — the bytes of a codec library
- `SourceUnit.construct` — a value of an enum
-/

namespace ScaleCalls.Solidity

/-- Integers of this width fit everything that a value of 128 bits can hold. -/
def fullWidth : Nat := 128

def encodeUint (bits n : Nat) : Except EvalFault Bytes :=
  if bits < fullWidth ∧ Nat.pow 2 bits ≤ n then .error (.outOfRange (toString n) bits)
  else .ok (Scale.uint n bits)

/-- A signed integer that must fit its width; without bits there is no range to leave. -/
def encodeInt (bits : Nat) (i : Int) : Except EvalFault Bytes :=
  if 0 < bits ∧ bits < fullWidth ∧ (i < -Int.pow 2 (bits - 1) ∨ Int.pow 2 (bits - 1) ≤ i) then
    .error (.outOfRange (toString i) bits)
  else .ok (Scale.int i bits)

def encodeCompact (width : CompactWidth) (n : Nat) : Except EvalFault Bytes :=
  if Scale.compactMax width < n then .error (.outOfRange (toString n) width.bits)
  else .ok (Scale.compact n)

def exactly (len : Nat) (b : Bytes) : Except EvalFault Bytes :=
  if b.length = len then .ok b else .error (.lengthMismatch len b.length)

def encodeWord (w : BitVec 256) : Bytes := Scale.littleEndian 32 w.toNat

/-- A value in an encoding other than that of a codec library. -/
def encodeScalar : Encoding → Value → Except EvalFault Bytes
  | .bool, .bool b => .ok (Scale.bool b)
  | .uint bits, .uint n => encodeUint bits n
  | .uint 256, .word w => .ok (encodeWord w)
  | .int 256, .word w => .ok (encodeWord w)
  | .int bits, .int i => encodeInt bits i
  | .compact width, .uint n => encodeCompact width n
  | .bytes, .bytes b => .ok (Scale.bytes b)
  | .str, .str s => .ok (Scale.bytes s.toUTF8.toList)
  | .accountId32, .bytes b => exactly 32 b
  | .multiAddressId32, .bytes b => (exactly 32 b).map Scale.multiAddress
  | .fixedBytes len, .bytes b => exactly len b
  | encoding, value => .error (value.mismatch encoding.label)

/-- The tag and the payload of a value of an enum. -/
def encodeTagged (value : Value) : Except EvalFault Bytes := do
  let tag ← match ← value.field "tag" with
    | .uint n => if n < 256 then pure n else throw (.outOfRange (toString n) 8)
    | other => throw (other.mismatch "uint")
  match ← value.field "payload" with
  | .bytes payload => return UInt8.ofNat tag :: payload
  | other => throw (other.mismatch "bytes")

def isSome (value : Value) : Except EvalFault Bool := do
  match ← value.field "isSome" with
  | .bool b => return b
  | other => throw (other.mismatch "bool")

/-- A sequence of `count` elements has the length that it must have. -/
def checkLength (bound len : Option Nat) (count : Nat) : Except EvalFault Unit :=
  if len.any (· ≠ count) then .error (.lengthMismatch (len.getD 0) count)
  else if bound.any (· < count) then .error (.boundExceeded count (bound.getD 0))
  else .ok ()

/-- What stands in front of the elements of a sequence. -/
def lengthBytes (prefixed : Bool) (count : Nat) : Bytes :=
  if prefixed then Scale.compact count else []

namespace SourceUnit

def encode (unit : SourceUnit) (encoding : Encoding) (value : Value) : Except EvalFault Bytes :=
  match encoding with
  | .codec name =>
    match unit.codec? name with
    | none => .error (.unknownCodec name)
    | some codec =>
      match codec.body with
      | .record fields => do
        let parts ← fields.mapM fun p =>
          match _h : value.field p.name with
          | .error fault => .error fault
          | .ok v => encode unit p.encoding v
        return parts.flatten
      | .tagged _ => encodeTagged value
      | .sequence elem prefixed bound len =>
        match value with
        | .list items => do
          checkLength bound len items.length
          let parts ← items.attach.mapM fun item => encode unit elem item.val
          return lengthBytes prefixed items.length ++ parts.flatten
        | other => .error (other.mismatch "list")
      | .optional inner => do
        if ← isSome value then
          match _h : value.field "value" with
          | .error fault => .error fault
          | .ok v => return Scale.option (some (← encode unit inner v))
        else return Scale.option none
  | encoding => encodeScalar encoding value
termination_by sizeOf value
decreasing_by
  · exact Value.sizeOf_field _h
  · have := List.sizeOf_lt_of_mem item.property
    simp
    omega
  · exact Value.sizeOf_field _h

/-- The value of an operand, where only parameters are bound. -/
def operand (params : List (String × Value)) : Operand → Except EvalFault Value
  | .param name =>
    match params.lookup name with
    | some v => .ok v
    | none => .error (.unbound name)
  | .field name => .error (.unbound s!"v.{name}")
  | .element => .error (.unbound "v[i]")

mutual

def expr (unit : SourceUnit) (params : List (String × Value)) : Expr → Except EvalFault Bytes
  | .callIndex index => .ok (Scale.callIndex index.group index.call)
  | .encode encoding operand => do unit.encode encoding (← SourceUnit.operand params operand)
  | .concat parts => exprs unit params parts

/-- The bytes of several expressions, one after the other. -/
def exprs (unit : SourceUnit) (params : List (String × Value)) :
    List Expr → Except EvalFault Bytes
  | [] => .ok []
  | part :: parts => do return (← expr unit params part) ++ (← exprs unit params parts)

end

def bind (name : String) (params : List Param) (args : List Value) :
    Except EvalFault (List (String × Value)) :=
  if params.length = args.length then .ok ((params.map Param.name).zip args)
  else .error (.arity name params.length args.length)

def call (unit : SourceUnit) (name : String) (args : List Value) : Except EvalFault Bytes :=
  match unit.function? name with
  | none => .error (.unknownFunction name)
  | some f => do unit.expr (← bind name f.params args) f.body

/-- The bytes that a codec library returns for a value. -/
def applyCodec (unit : SourceUnit) (codec : String) (value : Value) : Except EvalFault Bytes :=
  unit.encode (.codec codec) value

/-- The value that a constructor of an enum returns. A variant goes by the name of
its constructor or by its member of the tag enum. -/
def construct (unit : SourceUnit) (enumType variant : String) (args : List Value) :
    Except EvalFault Value :=
  let codecName := enumType ++ "Codec"
  match unit.codec? codecName with
  | none => .error (.unknownCodec codecName)
  | some codec =>
    match codec.constructors.find? fun c => c.name == variant || c.member == variant with
    | none => .error (.unknownVariant codecName variant)
    | some c => do
      return .tagged c.discriminant (← unit.expr (← bind c.name c.params args) c.payload)

end SourceUnit

end ScaleCalls.Solidity
