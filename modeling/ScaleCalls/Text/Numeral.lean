/-!
# Unsigned decimal numerals

Lengths, bounds and type ids are written as decimal numerals. A numeral is a
non-empty run of ASCII digits; leading zeros are allowed. Lengths and bounds may
carry one plus sign in front. A numeral whose value does not fit the width of
its place is no numeral there.

## Main definitions

- `Text.digits?` — the value of a run of digits below a limit
- `Text.numeral?` — the same with an optional plus sign
-/

namespace ScaleCalls.Text

/-- Places that hold a 32-bit number. -/
def limit32 : Nat := Nat.pow 2 32

/-- Places that hold a 64-bit number. -/
def limit64 : Nat := Nat.pow 2 64

def digitValue (c : Char) : Nat := c.toNat - '0'.toNat

/-- The number written by a list of digits, most significant first. -/
def digitsValue (cs : List Char) : Nat :=
  cs.foldl (fun n c => 10 * n + digitValue c) 0

/-- The value of a non-empty run of digits, when it lies below `limit`. -/
def digits? (limit : Nat) (cs : List Char) : Option Nat :=
  if cs.isEmpty || !cs.all Char.isDigit then none
  else if digitsValue cs < limit then some (digitsValue cs) else none

/-- A run of digits with at most one plus sign in front. -/
def numeral? (limit : Nat) : List Char → Option Nat
  | '+' :: cs => digits? limit cs
  | cs => digits? limit cs

end ScaleCalls.Text
