import ScaleCalls.Calls.Collection
import ScaleCalls.Calls.Policy
import ScaleCalls.Solidity.TypeNames
import ScaleCalls.Solidity.Unit
import ScaleCalls.Types.Search

/-!
# From calls to source units

The unit of a group declares every type that the encoded calls of the group reach,
each behind the types that it refers to, and encodes every call by its two index
bytes and its arguments in order. All identifiers are given out before anything is
declared, so types, encodings and declarations are read off a finished assignment.

A call with an argument that reaches an unsupported type is left out with a note,
or makes the whole unit fail, as the policy says.

## Main definitions

- `Lowering` — a catalog together with the identifiers of its types
- `Collection.unit` — the unit of a group
- `RefusedCall` — the call that makes a unit fail
-/

namespace ScaleCalls

namespace Solidity

/-- A catalog and the identifiers of the types that are declared. -/
structure Lowering where
  catalog : Catalog
  names : TypeNames

namespace Lowering

def ident (lowering : Lowering) (handle : String) : String :=
  (lowering.names.get? handle).getD ""

def codecName (lowering : Lowering) (handle : String) : String :=
  lowering.ident handle ++ "Codec"

def primitive (kind : Primitive) : Ty × Encoding :=
  match kind with
  | .bool => (.bool, .bool)
  | .accountId32 => (.fixedBytes 32, .accountId32)
  | .multiAddressId32 => (.fixedBytes 32, .multiAddressId32)
  | .bytes => (.bytes, .bytes)
  | .str => (.string, .str)
  | kind =>
    let bits := kind.bits?.getD 256
    if kind.isSigned then (.int bits, .int bits) else (.uint bits, .uint bits)

def encoding (lowering : Lowering) (handle : String) : Encoding :=
  match lowering.catalog.get? handle with
  | none => .bytes
  | some d =>
    match d.kind with
    | .primitive kind => (primitive kind).2
    | .fixedBytes len => .fixedBytes len
    | .compact width => .compact width
    | .unsupported _ => .bytes
    | .fixedArray _ _ | .vector _ | .boundedVector _ _ | .option _ | .record _ | .enum _ =>
      .codec (lowering.codecName handle)

/-- The Solidity type of a type, along a chain of arrays of at most `fuel` links. -/
def tyWithin (lowering : Lowering) : (fuel : Nat) → String → Ty
  | 0, _ => .bytes
  | fuel + 1, handle =>
    match lowering.catalog.get? handle with
    | none => .bytes
    | some d =>
      match d.kind with
      | .primitive kind => (primitive kind).1
      | .fixedBytes len => if 1 ≤ len ∧ len ≤ 32 then .fixedBytes len else .bytes
      | .compact width => .uint width.bits
      | .vector elem | .boundedVector elem _ => .array (lowering.tyWithin fuel elem) none
      | .fixedArray elem len => .array (lowering.tyWithin fuel elem) (some len)
      | .option _ | .record _ | .enum _ => .named (lowering.ident handle)
      | .unsupported _ => .bytes

def ty (lowering : Lowering) (handle : String) : Ty :=
  lowering.tyWithin (lowering.catalog.size + 1) handle

/-- Parameters from the names that they ask for and their handles. -/
def params (lowering : Lowering) (wanted : List (String × String)) : List Param :=
  List.zipWith (fun name w => ⟨name, lowering.ty w.2, lowering.encoding w.2⟩)
    (Scope.empty.claimAll (wanted.map Prod.fst)) wanted

/-- The name that a field asks for: its own, or its position. -/
def fieldBase (field : Field × Nat) : String :=
  match field.1.name with
  | some name => camel name
  | none => positional field.2

/-- The fields of a struct or of a variant as parameters. -/
def fields (lowering : Lowering) (fields : List Field) : List Param :=
  lowering.params (fields.zipIdx.map fun f => (fieldBase f, f.1.handle))

def encodeParam (param : Param) : Expr := .encode param.encoding (.param param.name)

/-- The members of a struct. A struct without fields gets one, as it may not be empty. -/
def members (fields : List Param) : List Member :=
  if fields.isEmpty then [⟨"_empty", .bool⟩] else fields.map fun p => ⟨p.name, p.ty⟩

/-- The constructor of a variant, from its own name and its member of the tag enum. -/
def constructor (lowering : Lowering) (name : String) (member : String) (variant : Variant) :
    Constructor :=
  let params := lowering.fields variant.fields
  ⟨name, member, variant.discriminant, params, .concat (params.map encodeParam)⟩

/-- The members of the tag enum of some variants. -/
def tagMembers (variants : List Variant) : List String :=
  Scope.empty.claimAll (variants.map fun v => pascal v.name)

/-- The names of the constructors of some variants, apart from the function that
every codec library has. -/
def constructorNames (variants : List Variant) : List String :=
  (Scope.reserving ["encode"]).claimAll (variants.map fun v => camel v.name)

def constructors (lowering : Lowering) (variants : List Variant) : List Constructor :=
  ((constructorNames variants).zip (tagMembers variants)).zipWith
    (fun n v => lowering.constructor n.1 n.2 v) variants

def codec (lowering : Lowering) (d : Descriptor) (body : CodecBody)
    (constructors : List Constructor) : Declaration :=
  .codec ⟨lowering.codecName d.name, d.name, lowering.ty d.name, body, constructors⟩

def declarations (lowering : Lowering) (d : Descriptor) : List Declaration :=
  let ident := lowering.ident d.name
  match d.kind with
  | .record fields =>
    let fields := lowering.fields fields
    [.record ident (members fields), lowering.codec d (.record fields) []]
  | .enum variants =>
    let tag := ident ++ "Tag"
    [.tagEnum tag (tagMembers variants),
      .record ident [⟨"tag", .named tag⟩, ⟨"payload", .bytes⟩],
      lowering.codec d (.tagged tag) (lowering.constructors variants)]
  | .option elem =>
    [.record ident [⟨"isSome", .bool⟩, ⟨"value", lowering.ty elem⟩],
      lowering.codec d (.optional (lowering.encoding elem)) []]
  | .vector elem =>
    [lowering.codec d (.sequence (lowering.encoding elem) true none none) []]
  | .boundedVector elem bound =>
    [lowering.codec d (.sequence (lowering.encoding elem) true bound none) []]
  | .fixedArray elem len =>
    [lowering.codec d (.sequence (lowering.encoding elem) false none (some len)) []]
  | .primitive _ | .fixedBytes _ | .compact _ | .unsupported _ => []

def function (lowering : Lowering) (name : String) (call : ResolvedCall) : CallFunction :=
  let params := lowering.params (call.args.map fun a => (camel a.name, a.handle))
  { name
    qualified := call.qualified
    index := call.index
    params
    body := .concat (.callIndex call.index :: params.map encodeParam) }

end Lowering

end Solidity

/-- The name that the encoder of a call asks for. -/
def ResolvedCall.functionBase (call : ResolvedCall) : String :=
  Solidity.functionName call.group call.name

/-- A call that makes a unit fail, with the argument that stands in the way. -/
structure RefusedCall where
  qualified : String
  arg : Solidity.UnsupportedArgument
  deriving Repr, DecidableEq

def RefusedCall.message (call : RefusedCall) : String :=
  s!"{call.qualified}: argument `{call.arg.name}` has unsupported type " ++
    s!"`{call.arg.reference}` ({call.arg.fault.message})"

namespace Collection

open Solidity

/-- The arguments of a call that reach an unsupported type, in order. -/
def unsupportedArgs (collection : Collection) (call : ResolvedCall) : List UnsupportedArgument :=
  call.args.filterMap fun arg =>
    (collection.catalog.firstUnsupported? arg.handle).map fun offence =>
      ⟨arg.name, arg.reference, offence.fault⟩

def isSupported (collection : Collection) (call : ResolvedCall) : Bool :=
  (collection.unsupportedArgs call).isEmpty

def skipNote (collection : Collection) (call : ResolvedCall) : SkipNote :=
  ⟨call.qualified, call.index, collection.unsupportedArgs call⟩

/-- The first call of a list that cannot be encoded, with its first such argument. -/
def firstRefused? (collection : Collection) (calls : List ResolvedCall) : Option RefusedCall :=
  calls.findSome? fun call =>
    (collection.unsupportedArgs call).head?.map fun arg => ⟨call.qualified, arg⟩

/-- The types that the arguments of some calls need declared, dependencies first. -/
def declaredTypes (collection : Collection) (calls : List ResolvedCall) : List Descriptor :=
  collection.catalog.reachable (calls.flatMap fun call => call.args.map ResolvedArgument.handle)

def unitOf (collection : Collection) (codecLibrary group : String)
    (calls : List ResolvedCall) (skipped : List SkipNote) : SourceUnit :=
  let library := libraryName group
  let types := collection.declaredTypes calls
  let lowering : Lowering :=
    ⟨collection.catalog,
      (TypeNames.reserving [library, codecLibrary]).nameAll collection.catalog types⟩
  { group
    library
    declarations := types.flatMap lowering.declarations
    functions := List.zipWith lowering.function
      (Scope.empty.claimAll (calls.map ResolvedCall.functionBase)) calls
    skipped }

/-- The unit of a group; `codecLibrary` is the library with the primitive codecs. -/
def unit (collection : Collection) (policy : Policy) (codecLibrary group : String) :
    Except RefusedCall SourceUnit :=
  let calls := collection.callsOf group
  let supported := collection.unitOf codecLibrary group
    (calls.filter collection.isSupported)
    ((calls.filter fun call => !collection.isSupported call).map collection.skipNote)
  match policy, collection.firstRefused? calls with
  | .fail, some refused => .error refused
  | .fail, none => .ok supported
  | .skip, _ => .ok supported

end Collection

end ScaleCalls
