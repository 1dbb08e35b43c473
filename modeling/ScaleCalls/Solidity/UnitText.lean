import ScaleCalls.Solidity.Header
import ScaleCalls.Solidity.Unit

/-!
# Source units as text

The Solidity text of a unit: the import of the primitive codecs, the declarations
and the library with one function per call. Skipped calls leave a comment.

## Main definitions

- `Expr.text` — expressions
- `SourceUnit.text` — the file of a unit

## Design notes

`library` stands for the name of the library with the primitive codecs throughout.
-/

namespace ScaleCalls.Solidity

def Operand.text : Operand → String
  | param name => name
  | field name => s!"v.{name}"
  | element => "v[i]"

def encodeText (library : String) (encoding : Encoding) (operand : Operand) : String :=
  let x := operand.text
  match encoding with
  | .bool => s!"{library}.boolean({x})"
  | .uint bits => if bits = 8 then s!"{library}.u8({x})" else s!"{library}.u{bits}LE({x})"
  | .int bits =>
    if bits = 8 then s!"{library}.u8(uint8({x}))" else s!"{library}.u{bits}LE(uint{bits}({x}))"
  | .compact _ => s!"{library}.compactUint(uint256({x}))"
  | .bytes => s!"{library}.vecU8({x})"
  | .str => s!"{library}.vecU8(bytes({x}))"
  | .accountId32 => s!"{library}.accountId32({x})"
  | .multiAddressId32 => s!"{library}.multiAddressId32({x})"
  | .fixedBytes len =>
    if 1 ≤ len ∧ len ≤ 32 then s!"abi.encodePacked({x})" else s!"{library}.fixedBytes({x}, {len})"
  | .codec name => s!"{name}.encode({x})"

def commaSeparated (texts : List String) : String := String.intercalate ", " texts

def concatText : List String → String
  | [] => "\"\""
  | [single] => single
  | parts => s!"bytes.concat({commaSeparated parts})"

mutual

def Expr.text (library : String) : Expr → String
  | .callIndex index =>
    s!"{library}.callIndex({index.group.toNat}, {index.call.toNat})"
  | .encode encoding operand => encodeText library encoding operand
  | .concat parts => concatText (Expr.texts library parts)

def Expr.texts (library : String) : List Expr → List String
  | [] => []
  | part :: parts => part.text library :: Expr.texts library parts

end

def Member.text (member : Member) : String := s!"{member.ty.text} {member.name}"

def Param.text (param : Param) : String := s!"{param.ty.located} {param.name}"

/-- The head of a function that returns a value of the given type. -/
def functionHead (name parameters returns : String) : String :=
  s!"function {name}({parameters}) internal pure returns ({returns})"

/-- The parameters of a function as they are declared. -/
def paramsText (params : List Param) : String := commaSeparated (params.map Param.text)

def enumLines : List String → List Code
  | [] => []
  | [last] => [.line last]
  | first :: rest => .line s!"{first}," :: enumLines rest

/-- The body of the function `encode` of a codec library. -/
def CodecBody.code (library : String) : CodecBody → List Code
  | .record fields =>
    let parts := fields.map fun p => encodeText library p.encoding (.field p.name)
    [.line s!"return {concatText parts};"]
  | .tagged _ => [.line "return bytes.concat(abi.encodePacked(uint8(v.tag)), v.payload);"]
  | .sequence elem prefixed bound _ =>
    (match bound with
      | none => []
      | some bound => [.line s!"require(v.length <= {bound}, \"bound exceeded\");"])
    ++ [.line (if prefixed then s!"bytes memory out = {library}.compactUint(v.length);"
          else "bytes memory out = \"\";"),
        .block "for (uint256 i = 0; i < v.length; i++)"
          [.line s!"out = bytes.concat(out, {encodeText library elem .element});"],
        .line "return out;"]
  | .optional inner =>
    let value := encodeText library inner (.field "value")
    [.line s!"if (!v.isSome) return {library}.optionNone();",
      .line s!"return {library}.optionSome({value});"]

/-- The tag enum of a codec library that has one. -/
def CodecBody.tagEnum : CodecBody → String
  | .tagged name => name
  | _ => ""

/-- The function that builds one variant, behind an empty line. -/
def Constructor.code (library : String) (subject : Ty) (tagEnum : String) (c : Constructor) :
    List Code :=
  [.blank,
    .block (functionHead c.name (paramsText c.params) subject.located)
      [.line s!"return {subject.text}({tagEnum}.{c.member}, {c.payload.text library});"]]

def Codec.code (library : String) (codec : Codec) : Code :=
  .block s!"library {codec.name}"
    (.block (functionHead "encode" s!"{codec.subject.located} v" "bytes memory")
        (codec.body.code library)
      :: codec.constructors.flatMap
          (Constructor.code library codec.subject codec.body.tagEnum))

def Declaration.code (library : String) : Declaration → Code
  | .tagEnum name members => .block s!"enum {name}" (enumLines members)
  | .record name members => .block s!"struct {name}" (members.map fun m => .line s!"{m.text};")
  | .codec c => c.code library

/-- Lines with a comma behind each but the last, one level deeper. -/
def argumentLines (texts : List String) : List Code :=
  enumLines (texts.map fun text => Code.indentation 1 ++ text)

/-- The statement that returns the bytes of a call: one part on each line. -/
def returnCode (library : String) : Expr → List Code
  | .concat (first :: second :: rest) =>
    .line "return bytes.concat(" ::
      (argumentLines (Expr.texts library (first :: second :: rest)) ++ [.line ");"])
  | expr => [.line s!"return {expr.text library};"]

/-- The function that encodes a call, behind an empty line. -/
def CallFunction.code (library : String) (f : CallFunction) : List Code :=
  [.blank,
    .line s!"/// @notice {f.qualified}",
    .block (functionHead f.name (paramsText f.params) "bytes memory") (returnCode library f.body)]

def SkipNote.code (note : SkipNote) : Code :=
  let args := note.args.map fun a => s!"{a.name}:{a.reference}"
  .line s!"// Skipped {note.qualified}: unsupported arg types: {commaSeparated args}"

def SourceUnit.code (unit : SourceUnit) (header : Header) (library : String) : List Code :=
  header.code
    ++ [.line s!"import \"./{library}.sol\";"]
    ++ unit.declarations.flatMap (fun d => [.blank, d.code library])
    ++ [.blank,
        .line s!"/// @title Typed SCALE encoders for {unit.group} calls",
        .block s!"library {unit.library}"
          (unit.skipped.map SkipNote.code ++ unit.functions.flatMap (CallFunction.code library))]

def SourceUnit.text (unit : SourceUnit) (header : Header) (library : String) : String :=
  Code.text (unit.code header library)

end ScaleCalls.Solidity
