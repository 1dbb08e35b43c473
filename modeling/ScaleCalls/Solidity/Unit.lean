import ScaleCalls.Metadata.Snapshot
import ScaleCalls.Scale.Encoding
import ScaleCalls.Solidity.Type
import ScaleCalls.Types.Fault

/-!
# Source units

The generated code of one group of calls, before it is written as text. A unit
declares the types of the arguments with a codec library for each of them, and
holds one function per call that puts the bytes of the call together.

## Main definitions

- `Solidity.Expr` — expressions that produce bytes
- `Solidity.Codec` — the library that encodes one type
- `Solidity.SourceUnit` — a unit; `codec?`, `codecFor?` and `function?` look into it
-/

namespace ScaleCalls.Solidity

/-- A member of a struct. -/
structure Member where
  name : String
  ty : Ty
  deriving Repr, DecidableEq

/-- A name with its type and encoding: a parameter, or a field that is encoded. -/
structure Param where
  name : String
  ty : Ty
  encoding : Encoding
  deriving Repr, DecidableEq

/-- Where an encoded value comes from. -/
inductive Operand where
  /-- A parameter of the function. -/
  | param (name : String)
  /-- A field of the value that is encoded. -/
  | field (name : String)
  /-- The current element of a sequence. -/
  | element
  deriving Repr, DecidableEq

/-- An expression that produces bytes. -/
inductive Expr where
  /-- The two bytes that select a call. -/
  | callIndex (index : CallIndex)
  | encode (encoding : Encoding) (operand : Operand)
  | concat (parts : List Expr)
  deriving Repr, BEq

/-- How a codec library encodes its type. -/
inductive CodecBody where
  /-- The fields in order. -/
  | record (fields : List Param)
  /-- The byte of the tag, then the payload as it is. -/
  | tagged (tagEnum : String)
  /-- The elements in order; a compact length in front if `prefixed`. -/
  | sequence (elem : Encoding) (prefixed : Bool) (bound : Option Nat) (len : Option Nat)
  /-- The byte 0, or the byte 1 and the value. -/
  | optional (inner : Encoding)
  deriving Repr, DecidableEq

/-- Builds one variant of an enum from its fields. -/
structure Constructor where
  name : String
  /-- The member of the tag enum. -/
  member : String
  discriminant : UInt8
  params : List Param
  payload : Expr
  deriving Repr, BEq

/-- The library that encodes one type. -/
structure Codec where
  name : String
  /-- The canonical name of the type. -/
  typeName : String
  subject : Ty
  body : CodecBody
  constructors : List Constructor
  deriving Repr, BEq

/-- A declaration at the top level of a unit. -/
inductive Declaration where
  | tagEnum (name : String) (members : List String)
  | record (name : String) (members : List Member)
  | codec (codec : Codec)
  deriving Repr, BEq

/-- The function that encodes one call. -/
structure CallFunction where
  name : String
  /-- Group and call as the metadata names them. -/
  qualified : String
  index : CallIndex
  params : List Param
  body : Expr
  deriving Repr, BEq

/-- An argument without a layout. -/
structure UnsupportedArgument where
  name : String
  reference : String
  fault : TypeFault
  deriving Repr, DecidableEq

/-- A call that is left out, with the arguments that stand in the way. -/
structure SkipNote where
  qualified : String
  index : CallIndex
  args : List UnsupportedArgument
  deriving Repr, DecidableEq

/-- The generated code of one group. -/
structure SourceUnit where
  group : String
  library : String
  declarations : List Declaration
  functions : List CallFunction
  skipped : List SkipNote
  deriving Repr, BEq

/-- The codec library that a declaration declares. -/
def Declaration.codec? : Declaration → Option Codec
  | codec c => some c
  | _ => none

namespace SourceUnit

def codecs (unit : SourceUnit) : List Codec := unit.declarations.filterMap Declaration.codec?

def codec? (unit : SourceUnit) (name : String) : Option Codec :=
  unit.codecs.find? fun c => c.name == name

def codecFor? (unit : SourceUnit) (typeName : String) : Option Codec :=
  unit.codecs.find? fun c => c.typeName == typeName

def function? (unit : SourceUnit) (name : String) : Option CallFunction :=
  unit.functions.find? fun f => f.name == name

end SourceUnit

end ScaleCalls.Solidity
