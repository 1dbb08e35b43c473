import Std.Data.TreeSet
import ScaleCalls.Types.Catalog

/-!
# Searching the catalog

Two depth-first searches along the handles of descriptors. Both visit a name
once and children in the order of the encoding, so they end on every catalog,
cyclic or not.

## Main definitions

- `Catalog.firstUnsupported?` — the first type without a layout under a name
- `Catalog.reachable` — the types to declare under some names, dependencies first

## Design notes

The visited names are a value that is handed from one visit to the next. A visit
goes deeper only after it has marked a new name of the catalog, so nesting is
bounded by the number of entries, which the fuel is taken from.
-/

namespace ScaleCalls.Catalog

abbrev Visited := Std.TreeSet String

/-- A name together with what is wrong with it. -/
structure Offence where
  name : String
  fault : TypeFault
  deriving Repr, DecidableEq

/-- Looks for an unsupported type from a name on: the offence, or the names seen
so far. Names without an entry count as unresolvable. -/
def findUnsupported (catalog : Catalog) :
    (fuel : Nat) → String → Visited → Except Offence Visited
  | 0, _, seen => .ok seen
  | fuel + 1, name, seen =>
    if seen.contains name then .ok seen
    else
      match catalog.get? name with
      | none => .error ⟨name, .unresolvable name "not in catalog"⟩
      | some d =>
        match d.kind with
        | .unsupported fault => .error ⟨name, fault⟩
        | kind =>
          kind.children.foldlM (fun seen child => findUnsupported catalog fuel child seen)
            (seen.insert name)

/-- The first unsupported type that a name reaches, itself included. -/
def firstUnsupported? (catalog : Catalog) (name : String) : Option Offence :=
  match catalog.findUnsupported (catalog.size + 1) name ∅ with
  | .ok _ => none
  | .error offence => some offence

/-- The state of an ordering search: the names seen and the types to declare, the
latest one first. -/
structure Ordering where
  seen : Visited
  done : List Descriptor

/-- Adds the types under a name behind those that they refer to. -/
def visit (catalog : Catalog) : (fuel : Nat) → Catalog.Ordering → String → Catalog.Ordering
  | 0, state, _ => state
  | fuel + 1, state, name =>
    if state.seen.contains name then state
    else
      match catalog.get? name with
      | none => ⟨state.seen.insert name, state.done⟩
      | some d =>
        let below := d.children.foldl (visit catalog fuel) ⟨state.seen.insert name, state.done⟩
        if d.isLeaf then below else ⟨below.seen, d :: below.done⟩

/-- The types that need a declaration under some names, each once and behind the
types that it refers to; a cycle is cut where it closes. -/
def reachable (catalog : Catalog) (roots : List String) : List Descriptor :=
  (roots.foldl (visit catalog (catalog.size + 1)) ⟨∅, []⟩).done.reverse

end ScaleCalls.Catalog
