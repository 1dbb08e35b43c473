import ScaleCalls.TypeName.Primitive

/-!
# Categories of type names

What a type name tells by itself. Every other part of the library works on this
closed set; a name outside of it needs the shape that the metadata stores for it.
-/

namespace ScaleCalls

/-- The layout that a type name announces; elements are names again. -/
inductive Category where
  | primitive (kind : Primitive)
  /-- Exactly `len` raw bytes. -/
  | fixedBytes (len : Nat)
  /-- Exactly `len` elements, without a length in front. -/
  | fixedArray (elem : String) (len : Nat)
  /-- Any number of elements behind a compact length. -/
  | vector (elem : String)
  /-- A vector with at most `bound` elements, where a bound is known. -/
  | boundedVector (elem : String) (bound : Option Nat)
  | option (elem : String)
  | compact (width : CompactWidth)
  /-- The name says nothing: a stored shape is needed. -/
  | unsupported
  deriving Repr, DecidableEq

def Category.element? : Category → Option String
  | fixedArray elem _ | vector elem | boundedVector elem _ | option elem => some elem
  | primitive _ | fixedBytes _ | compact _ | unsupported => none

end ScaleCalls
