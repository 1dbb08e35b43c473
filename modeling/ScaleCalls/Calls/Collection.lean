import ScaleCalls.Types.Walk

/-!
# Collecting the calls of some groups

Groups are asked for by name in any case. A name stands for the first group that
it matches; a group that is asked for again is collected once. Calls are sorted by
group, index and name, and each argument carries the handle of its type.

## Main definitions

- `Collection` — the calls and the types that they need
- `Collection.ofSnapshot` — the collection for a list of names
- `Collection.callsOf` — the calls of one group

## Design notes

Handles depend on the snapshot alone, so calls and catalog are built apart: the
catalog by entering the references of all arguments in the order of the groups.
-/

namespace ScaleCalls

/-- An argument with the handle of its type. -/
structure ResolvedArgument where
  name : String
  /-- The reference as the metadata has it. -/
  reference : String
  handle : String
  deriving Repr, DecidableEq

/-- A call with its group and its resolved arguments, in order. -/
structure ResolvedCall where
  name : String
  group : String
  index : CallIndex
  args : List ResolvedArgument
  deriving Repr, DecidableEq

def ResolvedCall.qualified (call : ResolvedCall) : String := s!"{call.group}.{call.name}"

/-- The order of calls: by group, then by index within it, then by name. -/
def ResolvedCall.le (a b : ResolvedCall) : Bool :=
  if a.index.group ≠ b.index.group then a.index.group < b.index.group
  else if a.index.call ≠ b.index.call then a.index.call < b.index.call
  else a.name ≤ b.name

/-- The calls of the groups that were asked for. -/
structure Collection where
  /-- In the order of `ResolvedCall.le`. -/
  calls : List ResolvedCall
  catalog : Catalog
  /-- The names of the matched groups as the metadata has them, by index. -/
  groups : List String
  /-- The names without a group, as they were asked for. -/
  unknownGroups : List String

namespace Collection

/-- A group joins the matched ones unless its name is among them. -/
def addGroup (matched : List Pallet) (pallet : Pallet) : List Pallet :=
  if matched.any fun p => p.name == pallet.name then matched else matched ++ [pallet]

/-- The groups that the names match, each once, by index. -/
def matchedGroups (snapshot : Snapshot) (names : List String) : List Pallet :=
  ((names.filterMap snapshot.pallet?).foldl addGroup []).mergeSort fun a b => a.index ≤ b.index

def unmatchedNames (snapshot : Snapshot) (names : List String) : List String :=
  names.filter fun name => (snapshot.pallet? name).isNone

def resolveArgument (table : TypeTable) (arg : Argument) : ResolvedArgument :=
  ⟨arg.name, arg.reference, table.handle arg.reference⟩

/-- A call of a group with the handles of its arguments. -/
def resolveCall (table : TypeTable) (pallet : Pallet) (call : Call) : ResolvedCall :=
  ⟨call.name, pallet.name, ⟨pallet.index, call.index⟩, call.args.map (resolveArgument table)⟩

/-- The references of all arguments of a group, in order. -/
def references (pallet : Pallet) : List String :=
  pallet.calls.flatMap fun call => call.args.map Argument.reference

/-- The calls of the groups that the names match. -/
def ofSnapshot (snapshot : Snapshot) (names : List String) : Collection :=
  let table := TypeTable.ofSnapshot snapshot
  let pallets := matchedGroups snapshot names
  { calls := (pallets.flatMap fun p => p.calls.map (resolveCall table p)).mergeSort
      ResolvedCall.le
    catalog := table.catalogOf (pallets.flatMap references)
    groups := pallets.map Pallet.name
    unknownGroups := unmatchedNames snapshot names }

def callsOf (collection : Collection) (group : String) : List ResolvedCall :=
  collection.calls.filter fun call => call.group == group

end Collection

end ScaleCalls
