import Std.Data.TreeMap
import ScaleCalls.Types.Descriptor

/-!
# The catalog of types

All resolved types, each under its canonical name. The catalog only grows: an
entry keeps its place and its content once it is there, and the order of the
entries is the order in which they came.

## Main definitions

- `Catalog` — the entries and the place of each name
- `Catalog.insert`, `Catalog.get?`, `Catalog.contains`
- `Catalog.insertIfNew` — insertion with the answer whether the descriptor came in
-/

namespace ScaleCalls

/-- Descriptors in the order of their arrival, and the place of each name. -/
structure Catalog where
  entries : Array Descriptor
  index : Std.TreeMap String Nat

namespace Catalog

def empty : Catalog := ⟨#[], ∅⟩

def contains (catalog : Catalog) (name : String) : Bool := catalog.index.contains name

def get? (catalog : Catalog) (name : String) : Option Descriptor := do
  catalog.entries[← catalog.index[name]?]?

/-- The catalog with a descriptor at its end, unless the name has an entry already. -/
def insert (catalog : Catalog) (d : Descriptor) : Catalog :=
  if catalog.contains d.name then catalog
  else ⟨catalog.entries.push d, catalog.index.insert d.name catalog.entries.size⟩

/-- Whether a descriptor comes in, as its name is new, and the catalog after that. -/
def insertIfNew (catalog : Catalog) (d : Descriptor) : Bool × Catalog :=
  (!catalog.contains d.name, catalog.insert d)

/-- The catalog that descriptors make, inserted in order. -/
def ofList (ds : List Descriptor) : Catalog := ds.foldl insert empty

def size (catalog : Catalog) : Nat := catalog.entries.size

def toList (catalog : Catalog) : List Descriptor := catalog.entries.toList

def names (catalog : Catalog) : List String := catalog.toList.map Descriptor.name

def unsupportedCount (catalog : Catalog) : Nat := catalog.toList.countP Descriptor.isUnsupported

end Catalog

end ScaleCalls
