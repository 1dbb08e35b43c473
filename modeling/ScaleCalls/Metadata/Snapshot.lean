import ScaleCalls.Json.Basic

/-!
# Metadata snapshots

The calls and types of one runtime: groups of calls (pallets) with their
arguments, and a table of types by id. References to types are texts, either
type names or ids such as `Lookup42`.

## Main definitions

- `Snapshot`, `Pallet`, `Call`, `Argument`, `TypeEntry`
- `CallIndex` — what a call is selected by
- `Snapshot.pallet?` — a group by its name
-/

namespace ScaleCalls

/-- The two bytes that select a call: its group, and the call within the group. -/
structure CallIndex where
  group : UInt8
  call : UInt8
  deriving Repr, DecidableEq

/-- An argument of a call. -/
structure Argument where
  name : String
  /-- A type name or the id of a type. -/
  reference : String
  deriving Repr, DecidableEq

/-- A call of a group; its arguments stand in the order in which they are written. -/
structure Call where
  name : String
  index : UInt8
  args : List Argument
  deriving Repr, DecidableEq

/-- A group of calls. -/
structure Pallet where
  name : String
  index : UInt8
  calls : List Call
  deriving Repr, DecidableEq

/-- An entry of the table of types. -/
structure TypeEntry where
  id : UInt32
  name : String
  path : List String
  /-- The shape of a composite type in its JSON vocabulary; leaf types have none. -/
  definition : Option Json
  deriving Repr, BEq

/-- The metadata of one runtime. -/
structure Snapshot where
  chain : String
  specName : String
  specVersion : UInt32
  pallets : List Pallet
  types : List TypeEntry
  deriving Repr, BEq

def Snapshot.empty : Snapshot := ⟨"", "", 0, [], []⟩

/-- Texts that differ at most in the case of ASCII letters. -/
def equalFold (a b : String) : Bool :=
  a.toList.map Char.toLower == b.toList.map Char.toLower

def Snapshot.pallet? (snapshot : Snapshot) (name : String) : Option Pallet :=
  snapshot.pallets.find? fun p => equalFold p.name name

end ScaleCalls
