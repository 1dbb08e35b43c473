import Std.Data.TreeMap
import Std.Data.TreeSet
import ScaleCalls.Metadata.TypeTable
import ScaleCalls.Registry.Basic
import ScaleCalls.TypeName.Classify

/-!
# Names for registry types

A flat type table refers to types by name, so every type of a registry gets a
name that the classification of type names understands:

* scalars, sequences, arrays, tuples, compact integers, options and bounded
  vectors are named after what they hold;
* a composite with one field has the name of its field;
* a type whose last path segment is classified by itself has this segment as its
  name;
* any other type has a name of its own: its last path segment, or its whole path if
  the segment is taken, or its path and number if that is taken too.

A type that is met again while its own name is being made goes by its number.

## Main definitions

- `Registry.rule` — how a type is named
- `Registry.nameOf` — the name of a type
- `Registry.nameAll` — the names of all types

## Design notes

The types whose names are being made lie on a path through the registry on which
no number occurs twice, so a path is at most as long as the table.
-/

namespace ScaleCalls.Registry

/-- How a type is named. -/
inductive NameRule where
  /-- By a text that other types may share. -/
  | fixed (text : String)
  /-- By the names of other types, with commas between them, and what stands around. -/
  | around (before : String) (inner : List UInt32) (after : String)
  /-- By the first of some texts that is not taken, else by the last one. -/
  | own (texts : List String) (last : String)
  deriving Repr, DecidableEq

/-- How a type without a structural name is named; `segment` ends its path. -/
def pathRule (number : UInt32) (entry : Entry) (segment : String) : NameRule :=
  if TypeName.classify segment ≠ .unsupported then .fixed segment
  else
    match entry.wrapped? with
    | some inner => .around "" [inner] ""
    | none =>
      let full := joinPath entry.path
      .own [segment, full] s!"{full}{number.toNat}"

def nominalRule (number : UInt32) (entry : Entry) : NameRule :=
  match entry.path.getLast? with
  | none => .own [] s!"Composite{number.toNat}"
  | some segment =>
    match entry.params.head?.bind Param.type with
    | none => pathRule number entry segment
    | some inner =>
      if segment = "Option" then .around "Option<" [inner] ">"
      else if segment = "BoundedVec" ∨ segment = "WeakBoundedVec" then
        .around "BoundedVec<" [inner] ">"
      else pathRule number entry segment

def rule (number : UInt32) (entry : Entry) : NameRule :=
  match entry.definition with
  | .scalar kind => .fixed kind.word
  | .compact inner => .around "Compact<" [inner] ">"
  | .sequence elem => .around "Vec<" [elem] ">"
  | .array len elem => .around "[" [elem] s!"; {len}]"
  | .tuple elems => .around "(" elems ")"
  | .bitSequence => .fixed "BitVec"
  | .composite _ | .variant _ => nominalRule number entry

/-- The names made so far, and the texts that are taken as names of their own. -/
structure Naming where
  names : Std.TreeMap UInt32 String
  taken : Std.TreeSet String

namespace Naming

def empty : Naming := ⟨∅, ∅⟩

/-- The text that a type gets as a name of its own. -/
def free (naming : Naming) (texts : List String) (last : String) : String :=
  (texts.find? fun text => !naming.taken.contains text).getD last

def take (naming : Naming) (text : String) : Naming :=
  ⟨naming.names, naming.taken.insert text⟩

def record (naming : Naming) (number : UInt32) (name : String) : Naming :=
  ⟨naming.names.insert number name, naming.taken⟩

def forAll (step : Naming → UInt32 → String × Naming) : Naming → List UInt32 →
    List String × Naming
  | naming, [] => ([], naming)
  | naming, number :: numbers =>
    let (name, naming) := step naming number
    let (names, naming) := forAll step naming numbers
    (name :: names, naming)

end Naming

/-- The name of a type; the names of the types in `path` are being made. -/
def nameWithin (registry : Registry) : (fuel : Nat) → (path : List UInt32) → Naming → UInt32 →
    String × Naming
  | 0, _, naming, number => (idReference number, naming)
  | fuel + 1, path, naming, number =>
    match naming.names[number]? with
    | some name => (name, naming)
    | none =>
      match registry.get? number with
      | none => (idReference number, naming)
      | some entry =>
        if path.contains number then (idReference number, naming)
        else
          match rule number entry with
          | .fixed text => (text, naming.record number text)
          | .around before inner after =>
            let (names, naming) := naming.forAll (nameWithin registry fuel (number :: path)) inner
            let name := before ++ String.intercalate ", " names ++ after
            (name, naming.record number name)
          | .own texts last =>
            let name := naming.free texts last
            (name, (naming.take name).record number name)

def nameOf (registry : Registry) (naming : Naming) (number : UInt32) : String × Naming :=
  registry.nameWithin (registry.types.size + 1) [] naming number

/-- The names of all types, made in the order of the table. -/
def nameAll (registry : Registry) : Naming :=
  registry.types.toList.foldl (fun naming entry => (registry.nameOf naming entry.id).2) .empty

def Naming.get (naming : Naming) (number : UInt32) : String :=
  (naming.names[number]?).getD (idReference number)

end ScaleCalls.Registry
