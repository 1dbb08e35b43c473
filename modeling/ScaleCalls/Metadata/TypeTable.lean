import Std.Data.TreeMap
import ScaleCalls.Metadata.Snapshot
import ScaleCalls.Text.Blank
import ScaleCalls.Text.Numeral
import ScaleCalls.Types.Fault

/-!
# Looking up types

The type entries of a snapshot by id and by name. The canonical name of an entry
is its name without blanks, else its path, else its id as a reference. An entry
is found under its canonical name and under its path. Of two entries with one
name the first is kept, but an entry with a definition takes the place of one
without. Of two entries with one id the last is kept.

## Main definitions

- `TypeTable.ofSnapshot`
- `TypeTable.canonical` — the canonical name behind a reference
- `TypeTable.shape` — the shape stored under a name
-/

namespace ScaleCalls

def joinPath (path : List String) : String := String.intercalate "::" path

def idReference (id : UInt32) : String := s!"Lookup{id.toNat}"

/-- The id that a reference without blanks gives, with or without the word in front. -/
def lookupId? (reference : String) : Option UInt32 :=
  let digits :=
    if "Lookup".toList.isPrefixOf reference.toList then reference.toList.drop 6
    else reference.toList
  (Text.digits? Text.limit32 digits).map UInt32.ofNat

def TypeEntry.canonicalName (entry : TypeEntry) : String :=
  let name := Text.stripBlanks entry.name
  if !name.isEmpty then name
  else if !entry.path.isEmpty then joinPath entry.path
  else idReference entry.id

def TypeEntry.references (entry : TypeEntry) : List String :=
  match entry.definition.map Shape.ofJson with
  | some (.ok shape) => shape.references
  | _ => []

/-- Room for a text and for all the shorter and shorter element names inside it. -/
def nestingBound (text : String) : Nat := text.length + 1

/-- Room for several texts. -/
def nestingRoom : List String → Nat
  | [] => 0
  | text :: texts => nestingBound text + nestingRoom texts

/-- Entries by id and by name. -/
structure TypeTable where
  byId : Std.TreeMap UInt32 TypeEntry
  byName : Std.TreeMap String TypeEntry
  /-- At most so many names can be reached from the texts of the entries: those
  texts themselves, and what stands inside them. -/
  bound : Nat

namespace TypeTable

def keys (entry : TypeEntry) : List String :=
  entry.canonicalName :: if entry.path.isEmpty then [] else [joinPath entry.path]

/-- A new entry goes in front of the present one under the same name. -/
def supersedes (entry : TypeEntry) : Option TypeEntry → Bool
  | none => true
  | some present => present.definition.isNone && entry.definition.isSome

def addName (entry : TypeEntry) (names : Std.TreeMap String TypeEntry) (key : String) :
    Std.TreeMap String TypeEntry :=
  if supersedes entry names[key]? then names.insert key entry else names

def add (table : TypeTable) (entry : TypeEntry) : TypeTable :=
  ⟨table.byId.insert entry.id entry, (keys entry).foldl (addName entry) table.byName,
    table.bound + nestingRoom (entry.canonicalName :: entry.references)⟩

def ofSnapshot (snapshot : Snapshot) : TypeTable :=
  snapshot.types.foldl add ⟨∅, ∅, 0⟩

/-- The canonical name behind a reference. An id leads to the name of its entry;
every other reference is a name itself. -/
def canonical (table : TypeTable) (reference : String) : Except TypeFault String :=
  let reference := Text.stripBlanks reference
  match lookupId? reference with
  | none => .ok reference
  | some id =>
    match table.byId[id]? with
    | some entry => .ok entry.canonicalName
    | none => .error (.unresolvable reference "unknown type id")

def shape (table : TypeTable) (name : String) : Except TypeFault Shape :=
  match table.byName[name]? with
  | none => .error (.unresolvable name "no type entry")
  | some entry =>
    match entry.definition with
    | none => .error (.unresolvable name "no composite definition")
    | some definition =>
      match Shape.ofJson definition with
      | .ok shape => .ok shape
      | .error fault => .error (.malformed name fault)

/-- The handle of a reference: its canonical name, or its own text where it leads
nowhere. -/
def handle (table : TypeTable) (reference : String) : String :=
  match table.canonical reference with
  | .ok name => name
  | .error _ => Text.stripBlanks reference

end TypeTable

end ScaleCalls
