/-!
# TOML documents as trees

The content of a TOML document. Tables remember how they came to be, because this
decides where they may still grow: a table that is only part of a dotted key may
be extended by other dotted keys, a table that stands above a header may get a
header of its own, and every other table is closed.

## Main definitions

- `Toml.Node`, `Toml.Origin`
- `Node.descend?` — changes what lies at a path
- `Node.assign?`, `Node.open?`, `Node.append?` — what the lines of a document do
-/

namespace ScaleCalls.Toml

/-- How a table came to be. -/
inductive Origin where
  /-- In braces. -/
  | inline
  /-- By a header of its own; also the document as a whole. -/
  | header
  /-- By a header further down. -/
  | ancestor
  /-- By a dotted key. -/
  | dotted
  deriving Repr, DecidableEq

/-- A value or a table. -/
inductive Node where
  | string (s : String)
  | integer (i : Int)
  /-- A floating-point number, by its spelling. -/
  | float (text : String)
  | boolean (b : Bool)
  /-- A date, a time or both, by its spelling. -/
  | datetime (text : String)
  | array (items : List Node)
  | table (origin : Origin) (entries : List (String × Node))
  /-- Tables under one header in double brackets, in order. -/
  | tables (elems : List Node)
  deriving Repr

/-- The entries of a table, in the order of their arrival. -/
abbrev Entries := List (String × Node)

/-- Adds an entry, or gives the entry of this key a new value where it stands. -/
def putEntry (entries : Entries) (key : String) (value : Node) : Entries :=
  match entries with
  | [] => [(key, value)]
  | (k, v) :: rest => if k = key then (k, value) :: rest else (k, v) :: putEntry rest key value

/-- The table was made on the way to something else. -/
def Origin.isImplicit : Origin → Bool
  | ancestor | dotted => true
  | inline | header => false

/-- A path may lead through a table of this origin. Dotted keys pass only through
implicit tables, headers through all but those in braces. -/
def Origin.admits (viaDots : Bool) (origin : Origin) : Bool :=
  if viaDots then origin.isImplicit else origin != .inline

namespace Node

def root : Node := .table .header []

/-- A table that is made on the way of a path. -/
def onTheWay (viaDots : Bool) : Node := .table (if viaDots then .dotted else .ancestor) []

def editLast? (edit : Node → Option Node) : List Node → Option (List Node)
  | [] => none
  | [last] => (edit last).map fun node => [node]
  | first :: rest => (editLast? edit rest).map (first :: ·)

/-- Changes what a path leads to, through the last of several tables where the path
meets them. Tables that are missing on the way are made; `viaDots` tells whether
the path is that of a dotted key. -/
def descend? (viaDots : Bool) (edit : Node → Option Node) : List String → Node → Option Node
  | [], node => edit node
  | key :: keys, .table origin entries =>
    let next : Option Node := match entries.lookup key with
      | none => descend? viaDots edit keys (onTheWay viaDots)
      | some (.table inner children) =>
        if inner.admits viaDots then descend? viaDots edit keys (.table inner children) else none
      | some (.tables elems) => (editLast? (descend? viaDots edit keys) elems).map .tables
      | some _ => none
    next.map fun node => .table origin (putEntry entries key node)
  | _ :: _, _ => none

/-- Adds an entry to a table in which the key is free. -/
def insert? (node : Node) (key : String) (value : Node) : Option Node :=
  match node with
  | .table origin entries =>
    if (entries.lookup key).isSome then none else some (.table origin (entries ++ [(key, value)]))
  | _ => none

/-- The end of a dotted key must be a table of dotted keys, the end of a plain one
must not. -/
def endsProperly (path : List String) : Node → Bool
  | .table origin _ => (origin == .dotted) != path.isEmpty
  | _ => false

/-- Gives a key a value, along the dotted path in front of it. -/
def assign? (node : Node) (path : List String) (key : String) (value : Node) : Option Node :=
  node.descend? true (fun t => if t.endsProperly path then t.insert? key value else none) path

/-- Gives a table a header of its own: a new table, or one that so far only stood
above other headers. -/
def openHere? (key : String) : Node → Option Node
  | .table origin entries =>
    match entries.lookup key with
    | none => some (.table origin (putEntry entries key (.table .header [])))
    | some (.table .ancestor children) =>
      some (.table origin (putEntry entries key (.table .header children)))
    | some _ => none
  | _ => none

/-- Adds a table behind those that stand under a header in double brackets. -/
def appendHere? (key : String) : Node → Option Node
  | .table origin entries =>
    match entries.lookup key with
    | none => some (.table origin (putEntry entries key (.tables [.table .header []])))
    | some (.tables elems) =>
      some (.table origin (putEntry entries key (.tables (elems ++ [.table .header []]))))
    | some _ => none
  | _ => none

def open? (path : List String) (node : Node) : Option Node := do
  node.descend? false (openHere? (← path.getLast?)) path.dropLast

def append? (path : List String) (node : Node) : Option Node := do
  node.descend? false (appendHere? (← path.getLast?)) path.dropLast

def entries : Node → Entries
  | .table _ entries => entries
  | _ => []

def ofInline? (pairs : List (List String × String × Node)) : Option Node :=
  pairs.foldlM (fun node p => node.assign? p.1 p.2.1 p.2.2) (.table .inline [])

end Node

end ScaleCalls.Toml
