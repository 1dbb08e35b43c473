import ScaleCalls.Json.Reader
import ScaleCalls.Json.Printer
import ScaleCalls.Metadata.Snapshot

/-!
# Snapshots as JSON texts

Reading and writing snapshots. A record is written as an object with its members
in order; `path` is left out when it is empty and `def` when there is none.

Reading is exact about what a record may be: an object with each known key at
most once, or an array with the members by position. Unknown keys are ignored,
whatever their values hold. The top level members, `calls`, `args` and `path`
are empty when they are missing; `def` may also be `null`.

## Main definitions

- `Snapshot.ofText?`, `Snapshot.toText`
-/

namespace ScaleCalls

namespace Json.Written

/-- The values of the known keys among written members; `none` when a key is no
text or a known key occurs twice. -/
def members? (keys : List String) (members : List (List Piece × Written)) :
    Option (List (Option Written)) := do
  let named ← members.mapM fun m => do return (← text? m.1, m.2)
  keys.mapM fun key =>
    match named.filter fun m => m.1 == key with
    | [] => some none
    | [m] => some (some m.2)
    | _ => none

/-- The members of a record, in the order of its keys. -/
def record? (keys : List String) : Written → Option (List (Option Written))
  | object members => members? keys members
  | array items =>
    if items.length ≤ keys.length then
      some (items.map some ++ List.replicate (keys.length - items.length) none)
    else none
  | _ => none

def string? : Written → Option String
  | string pieces => text? pieces
  | _ => none

/-- An integer below a limit, written without sign, fraction and exponent. -/
def natural? (limit : Nat) : Written → Option Nat
  | number ⟨false, whole, [], none⟩ => Text.digits? limit whole
  | _ => none

def list? {α : Type} (item? : Written → Option α) : Written → Option (List α)
  | array items => items.mapM item?
  | _ => none

/-- An optional value, for which `null` stands for nothing. -/
def optional? {α : Type} (some? : Written → Option α) : Written → Option (Option α)
  | null => some none
  | value => (some? value).map some

def orElse {α : Type} (default : α) (read? : Written → Option α) : Option Written → Option α
  | none => some default
  | some value => read? value

def byte? (value : Written) : Option UInt8 :=
  (natural? 256 value).map UInt8.ofNat

def word? (value : Written) : Option UInt32 :=
  (natural? Text.limit32 value).map UInt32.ofNat

end Json.Written

open Json (Written)

def Argument.ofWritten? (value : Written) : Option Argument := do
  match ← value.record? ["name", "type"] with
  | [name, reference] => return ⟨← (← name).string?, ← (← reference).string?⟩
  | _ => none

def Call.ofWritten? (value : Written) : Option Call := do
  match ← value.record? ["name", "index", "args"] with
  | [name, index, args] =>
    return ⟨← (← name).string?, ← (← index).byte?,
      ← Written.orElse [] (Written.list? Argument.ofWritten?) args⟩
  | _ => none

def Pallet.ofWritten? (value : Written) : Option Pallet := do
  match ← value.record? ["name", "index", "calls"] with
  | [name, index, calls] =>
    return ⟨← (← name).string?, ← (← index).byte?,
      ← Written.orElse [] (Written.list? Call.ofWritten?) calls⟩
  | _ => none

/-- The levels of a document that enclose the definition of a type. -/
def TypeEntry.definitionLevel : Nat := 3

def TypeEntry.ofWritten? (value : Written) : Option TypeEntry := do
  match ← value.record? ["id", "name", "path", "def"] with
  | [id, name, path, definition] =>
    return ⟨← (← id).word?, ← (← name).string?,
      ← Written.orElse [] (Written.list? Written.string?) path,
      ← Written.orElse none
        (Written.optional? (Written.value? (Json.maxDepth - definitionLevel))) definition⟩
  | _ => none

namespace Snapshot

def ofWritten? (value : Written) : Option Snapshot := do
  match ← value.record? ["chain", "spec_name", "spec_version", "pallets", "types"] with
  | [chain, specName, specVersion, pallets, types] =>
    return ⟨← Written.orElse "" Written.string? chain,
      ← Written.orElse "" Written.string? specName,
      ← Written.orElse 0 Written.word? specVersion,
      ← Written.orElse [] (Written.list? Pallet.ofWritten?) pallets,
      ← Written.orElse [] (Written.list? TypeEntry.ofWritten?) types⟩
  | _ => none

def ofText? (text : String) : Option Snapshot := do
  ofWritten? (← Json.read? text)

end Snapshot

def Json.ofNat (n : Nat) : Json := .number (.integer n)

def Argument.toJson (arg : Argument) : Json :=
  .object [("name", .string arg.name), ("type", .string arg.reference)]

def Call.toJson (call : Call) : Json :=
  .object [("name", .string call.name), ("index", .ofNat call.index.toNat),
    ("args", .array (call.args.map Argument.toJson))]

def Pallet.toJson (pallet : Pallet) : Json :=
  .object [("name", .string pallet.name), ("index", .ofNat pallet.index.toNat),
    ("calls", .array (pallet.calls.map Call.toJson))]

def TypeEntry.toJson (entry : TypeEntry) : Json :=
  .object ([("id", .ofNat entry.id.toNat), ("name", .string entry.name)]
    ++ (if entry.path.isEmpty then [] else [("path", .array (entry.path.map .string))])
    ++ (match entry.definition with
      | none => []
      | some definition => [("def", definition)]))

namespace Snapshot

def toJson (snapshot : Snapshot) : Json :=
  .object [("chain", .string snapshot.chain), ("spec_name", .string snapshot.specName),
    ("spec_version", .ofNat snapshot.specVersion.toNat),
    ("pallets", .array (snapshot.pallets.map Pallet.toJson)),
    ("types", .array (snapshot.types.map TypeEntry.toJson))]

def toText (snapshot : Snapshot) : String := snapshot.toJson.pretty

end Snapshot

end ScaleCalls
