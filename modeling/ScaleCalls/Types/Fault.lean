import ScaleCalls.Metadata.Shape

/-!
# Faults of types

Why a single type cannot be encoded. A fault is kept with the type that caused
it and only takes away the calls that reach this type.
-/

namespace ScaleCalls

/-- Why a type has no layout. -/
inductive TypeFault where
  /-- The reference leads nowhere. -/
  | unresolvable (reference : String) (reason : String)
  /-- The stored shape is no type. -/
  | malformed (name : String) (shape : ShapeFault)
  deriving Repr, DecidableEq

def TypeFault.message : TypeFault → String
  | unresolvable reference reason => s!"unresolvable type reference `{reference}`: {reason}"
  | malformed name shape => s!"malformed composite `{name}`: {shape.message}"

end ScaleCalls
