import ScaleCalls.Types.Catalog
import ScaleCalls.Types.Resolve

/-!
# Filling the catalog

A walk enters the descriptor of a name and then everything that the descriptor
refers to. A descriptor is entered before its handles are followed, so a walk
that comes back to a name stops there, whatever cycle the types form.

## Main definitions

- `TypeTable.walk` — all types under a canonical name
- `TypeTable.enter` — all types under a reference
- `TypeTable.catalogOf` — the catalog of several references

## Design notes

A walk goes deeper only after it has entered a new name. All names come from the
references and entries of the table and from the element names inside these
texts, each shorter than the one around it, so their number is bounded by the
lengths of the texts. The fuel is taken from this bound.
-/

namespace ScaleCalls.TypeTable

/-- Enters a name and all that it refers to. -/
def walk (table : TypeTable) : (fuel : Nat) → Catalog → String → Catalog
  | 0, catalog, _ => catalog
  | fuel + 1, catalog, name =>
    if catalog.contains name then catalog
    else
      (table.describe name).children.foldl (walk table fuel)
        (catalog.insert (table.describe name))

def enter (table : TypeTable) (catalog : Catalog) (reference : String) : Catalog :=
  table.walk (table.bound + nestingBound reference + 1) catalog (table.handle reference)

/-- The catalog of the types behind some references, entered one after the other. -/
def catalogOf (table : TypeTable) (references : List String) : Catalog :=
  references.foldl table.enter Catalog.empty

end ScaleCalls.TypeTable
