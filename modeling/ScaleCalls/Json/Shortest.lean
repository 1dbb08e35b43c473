/-!
# Shortest decimals

The text of a double: the fewest digits that read back to the same value, and of
those the nearest to it, a tie going to the even digit.

A finite double is `m * 2 ^ q`. The real numbers that round to it form an
interval, which reaches half way to each neighbour and holds its ends exactly
when `m` is even. For one digit, two digits and so on, the grid of decimals with
that many digits has two points next to the value; the first grid with a point
in the interval is taken. All comparisons are made on natural numbers.

## Main definitions

- `Shortest.Binary` — a finite double, decoded
- `Shortest.Decimal` — digits and an exponent
- `Shortest.decimal` — the chosen decimal of a value
- `Shortest.render` — its text
-/

namespace ScaleCalls.Shortest

/-- A finite value without its sign, `m * 2 ^ q`. -/
structure Binary where
  m : Nat
  q : Int
  /-- The neighbour below is half as far away as the one above. -/
  narrowBelow : Bool
  deriving Repr, DecidableEq

/-- The value with these bits; the bits are those of a finite double. -/
def Binary.ofBits (bits : UInt64) : Binary :=
  let e := ((bits >>> 52) &&& 0x7FF).toNat
  let f := (bits &&& 0xFFFFFFFFFFFFF).toNat
  if e = 0 then ⟨f, -1074, false⟩
  else ⟨Nat.pow 2 52 + f, (e : Int) - 1075, f = 0 && 1 < e⟩

/-- The number `digits * 10 ^ exp`. -/
structure Decimal where
  digits : Nat
  exp : Int
  deriving Repr, DecidableEq

/-- Compares `a * 10 ^ i` with `b * 2 ^ j`. -/
def compareScaled (a : Nat) (i : Int) (b : Nat) (j : Int) : Ordering :=
  compare (a * Nat.pow 10 i.toNat * Nat.pow 2 (-j).toNat)
    (b * Nat.pow 2 j.toNat * Nat.pow 10 (-i).toNat)

/-- The decimal lies among the numbers that round to the value. -/
def Binary.readsBack (x : Binary) (d : Decimal) : Bool :=
  let below := compareScaled d.digits d.exp (4 * x.m - if x.narrowBelow then 1 else 2) (x.q - 2)
  let above := compareScaled d.digits d.exp (4 * x.m + 2) (x.q - 2)
  let closed := x.m % 2 = 0
  (below = .gt || (closed && below = .eq)) && (above = .lt || (closed && above = .eq))

/-- The largest integer whose multiple of `10 ^ exp` is not above the value. -/
def Binary.floorOn (x : Binary) (exp : Int) : Nat :=
  (x.m * Nat.pow 2 x.q.toNat * Nat.pow 10 (-exp).toNat) /
    (Nat.pow 2 (-x.q).toNat * Nat.pow 10 exp.toNat)

/-- The nearer of two neighbours on a grid; the even one when both are as near. -/
def Binary.nearer (x : Binary) (low : Decimal) (high : Decimal) : Decimal :=
  match compareScaled (low.digits + high.digits) low.exp x.m (x.q + 1) with
  | .gt => low
  | .lt => high
  | .eq => if low.digits % 2 = 0 then low else high

/-- A point of the grid `10 ^ exp` that reads back, if there is one. -/
def Binary.onGrid? (x : Binary) (exp : Int) : Option Decimal :=
  let low : Decimal := ⟨x.floorOn exp, exp⟩
  let high : Decimal := ⟨x.floorOn exp + 1, exp⟩
  match x.readsBack low, x.readsBack high with
  | true, true => some (x.nearer low high)
  | true, false => some low
  | false, true => some high
  | false, false => none

/-- The least `k` with the value below `10 ^ k`, for a value that is not zero.
The estimate from the binary logarithm is at most one too small. -/
def Binary.scale (x : Binary) : Int :=
  let estimate := ((x.m.log2 : Int) + x.q) * 30103 / 100000
  let fits (k : Int) : Bool := compareScaled 1 k x.m x.q = .gt
  if fits (estimate - 1) then estimate - 1
  else if fits estimate then estimate
  else if fits (estimate + 1) then estimate + 1
  else estimate + 2

/-- The first grid from `n` digits on, of which `tries` are looked at. -/
def Binary.search (x : Binary) (k : Int) : (tries : Nat) → (n : Nat) → Option Decimal
  | 0, _ => none
  | tries + 1, n =>
    match x.onGrid? (k - n) with
    | some d => some d
    | none => x.search k tries (n + 1)

/-- The decimal without zeros at the end of its digits; `fuel` bounds their number. -/
def Decimal.strip (d : Decimal) : (fuel : Nat) → Decimal
  | 0 => d
  | fuel + 1 =>
    if d.digits ≠ 0 ∧ d.digits % 10 = 0 then
      Decimal.strip ⟨d.digits / 10, d.exp + 1⟩ fuel
    else d

/-- The exact decimal of a value: a power of two below one is a power of five
shifted by as many places. -/
def Binary.exact (x : Binary) : Decimal :=
  ⟨x.m * Nat.pow 2 x.q.toNat * Nat.pow 5 (-x.q).toNat, -((-x.q).toNat : Int)⟩

def Binary.decimal (x : Binary) : Decimal :=
  if x.m = 0 then ⟨0, 0⟩
  else
    let d := (x.search x.scale 17 1).getD x.exact
    d.strip (toString d.digits).length

/-- Positional notation for exponents of the leading digit from -5 to 15, else
digits with a point and an exponent, whose sign is always written. -/
def Decimal.render (d : Decimal) : String :=
  let text := toString d.digits
  let e : Int := d.exp + text.length - 1
  let zeros (n : Nat) : String := String.ofList (List.replicate n '0')
  if -5 ≤ e ∧ e ≤ 15 then
    if e < 0 then "0." ++ zeros (-e - 1).toNat ++ text
    else if 0 ≤ d.exp then text ++ zeros d.exp.toNat ++ ".0"
    else
      let cut := (e + 1).toNat
      String.ofList (text.toList.take cut) ++ "." ++ String.ofList (text.toList.drop cut)
  else
    let point := if text.length = 1 then text
      else String.ofList (text.toList.take 1) ++ "." ++ String.ofList (text.toList.drop 1)
    if e < 0 then point ++ "e-" ++ toString (-e).toNat
    else point ++ "e+" ++ toString e.toNat

def render (x : Float) : String :=
  let negative := x.toBits >>> 63 = 1
  let text := (Binary.ofBits (x.toBits &&& 0x7FFFFFFFFFFFFFFF)).decimal.render
  if negative then "-" ++ text else text

end ScaleCalls.Shortest
