import Std.Data.TreeSet

/-!
# Scopes

A scope hands out names that are unique within it. A name that is taken gets the
suffix `_2`, `_3`, …, the first that is free.

## Main definitions

- `Scope.claim` — one name
- `Scope.claimAll` — names for a list of bases, in order

## Design notes

Of `k` taken names at most `k` can be among the candidates, so looking at as many
candidates as there are taken names is enough to find a free one.
-/

namespace ScaleCalls

/-- The names that are taken. -/
structure Scope where
  taken : Std.TreeSet String

namespace Scope

/-- A scope in which the given names are taken from the start. -/
def reserving (names : List String) : Scope := ⟨Std.TreeSet.ofList names⟩

def empty : Scope := ⟨∅⟩

def isTaken (scope : Scope) (name : String) : Bool := scope.taken.contains name

def candidate (base : String) (n : Nat) : String := s!"{base}_{n}"

/-- The first free candidate from the `n`-th on; at most `tries` of them are tested. -/
def firstFree (scope : Scope) (base : String) : (tries : Nat) → (n : Nat) → String
  | 0, n => candidate base n
  | tries + 1, n =>
    if scope.isTaken (candidate base n) then scope.firstFree base tries (n + 1)
    else candidate base n

/-- The name that a base gets: itself when it is free. -/
def nameFor (scope : Scope) (base : String) : String :=
  if scope.isTaken base then scope.firstFree base scope.taken.size 2 else base

def take (scope : Scope) (name : String) : Scope := ⟨scope.taken.insert name⟩

/-- A free name for a base, and the scope in which it is taken. -/
def claim (scope : Scope) (base : String) : String × Scope :=
  (scope.nameFor base, scope.take (scope.nameFor base))

/-- Names for several bases, claimed one after the other. -/
def claimAll (scope : Scope) : List String → List String
  | [] => []
  | base :: bases => scope.nameFor base :: (scope.claim base).2.claimAll bases

@[simp] theorem length_claimAll (scope : Scope) (bases : List String) :
    (scope.claimAll bases).length = bases.length := by
  induction bases generalizing scope with
  | nil => rfl
  | cons base bases ih => simp [claimAll, ih]

end Scope

end ScaleCalls
