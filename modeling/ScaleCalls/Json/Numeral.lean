import ScaleCalls.Json.Basic
import ScaleCalls.Text.Numeral

/-!
# Numbers as they are written

A numeral keeps the digits of its parts. Its value is an integer when it has
neither fraction nor exponent and fits 64 bits; only `-0` is a double all the
same. Every other numeral is a double.

The digits of a double are collected into a significand as long as that stays
below `2 ^ 64`; the first digit that would carry it further and all digits
behind it in the same part are dropped. Dropped whole digits raise the decimal
exponent, kept fraction digits lower it. The significand becomes a double and is
scaled once, by a multiplication or a division with the power of ten. A value
that is too large is no number.

## Main definitions

- `Json.Numeral` — the written parts
- `Json.Numeral.value?` — the number it denotes
-/

namespace ScaleCalls.Json

/-- An exponent as it is written. -/
structure Exponent where
  negative : Bool
  digits : List Char
  deriving Repr, DecidableEq

/-- A number as it is written: a sign, whole digits, digits behind the point and
an exponent. -/
structure Numeral where
  negative : Bool
  whole : List Char
  fraction : List Char := []
  exponent : Option Exponent := none
  deriving Repr, DecidableEq

namespace Numeral

/-- Collects digits behind a significand while it stays below the limit; the
digits that are left over come second. -/
def collect (significand : Nat) : List Char → Nat × List Char
  | [] => (significand, [])
  | c :: cs =>
    let next := 10 * significand + Text.digitValue c
    if next < Text.limit64 then collect next cs else (significand, c :: cs)

/-- The power of ten as a double, for exponents up to 308. -/
def powerOfTen (n : Nat) : Float := Float.ofScientific 1 false n

/-- A double times a power of ten, or nothing where that is too large. Powers
beyond the range of doubles are taken in steps. -/
def scale? (x : Float) (exp : Int) : Option Float :=
  if exp.natAbs ≤ 308 then
    if 0 ≤ exp then
      let y := x * powerOfTen exp.natAbs
      if y.isInf then none else some y
    else some (x / powerOfTen exp.natAbs)
  else if x == 0 then some x
  else if 0 ≤ exp then none
  else scale? (x / powerOfTen 308) (exp + 308)
termination_by exp.natAbs
decreasing_by omega

/-- A double from a sign, a significand below `2 ^ 64` and a decimal exponent. -/
def real? (negative : Bool) (significand : Nat) (exp : Int) : Option Number :=
  (scale? (UInt64.ofNat significand).toFloat exp).map fun x =>
    .real (if negative then -x else x)

def exponentValue : Option Exponent → Int
  | none => 0
  | some e => if e.negative then -(Text.digitsValue e.digits : Int) else Text.digitsValue e.digits

def value? (n : Numeral) : Option Number :=
  let (whole, dropped) := collect 0 n.whole
  if n.fraction.isEmpty && n.exponent.isNone && dropped.isEmpty then
    if !n.negative then some (.integer whole)
    else if 0 < whole ∧ whole ≤ Nat.pow 2 63 then some (.integer (-(whole : Int)))
    else real? true whole 0
  else
    let (significand, rest) := collect whole n.fraction
    let kept := n.fraction.length - rest.length
    real? n.negative significand (dropped.length - kept + exponentValue n.exponent)

end Numeral

end ScaleCalls.Json
