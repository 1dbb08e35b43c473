/-!
# Solidity types

The types of parameters and members in generated code.

## Main definitions

- `Solidity.Ty` — the types, and `Ty.text`, how they are written
- `Ty.isReference` — types whose values live in memory
-/

namespace ScaleCalls.Solidity

/-- A type of a parameter or of a member. -/
inductive Ty where
  | bool
  | uint (bits : Nat)
  | int (bits : Nat)
  /-- A value type of 1 to 32 bytes. -/
  | fixedBytes (len : Nat)
  | bytes
  | string
  /-- A generated struct or enum. -/
  | named (name : String)
  /-- An array, of a fixed length where one is given. -/
  | array (elem : Ty) (len : Option Nat)
  deriving Repr, DecidableEq

namespace Ty

def text : Ty → String
  | bool => "bool"
  | uint bits => s!"uint{bits}"
  | int bits => s!"int{bits}"
  | fixedBytes len => s!"bytes{len}"
  | bytes => "bytes"
  | string => "string"
  | named name => name
  | array elem none => s!"{elem.text}[]"
  | array elem (some len) => s!"{elem.text}[{len}]"

/-- Values of the type are handed over by reference. -/
def isReference : Ty → Bool
  | bytes | string | named _ | array _ _ => true
  | bool | uint _ | int _ | fixedBytes _ => false

/-- The type with the data location that a reference type needs. -/
def located (ty : Ty) : String :=
  if ty.isReference then s!"{ty.text} memory" else ty.text

end Ty

end ScaleCalls.Solidity
