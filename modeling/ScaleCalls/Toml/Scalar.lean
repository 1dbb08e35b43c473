import ScaleCalls.Toml.Node
import ScaleCalls.Toml.Quoted

/-!
# Numbers, dates and words

The values of TOML that are written without quotes and brackets. Each is a word
from letters, digits and the characters `+ - . : _`, except that a blank may stand
between a date and a time.

## Main definitions

- `Toml.scalar?` — the value of a word
- `Toml.readScalar?` — the word at the start of a text, and its value

## Design notes

Integers have 64 bits. Floating-point numbers are kept by their spelling, but one
that lies above every double is no value. Its size is known from the number of its
digits and its exponent unless it is close to the largest double; only then the
number itself is looked at.
-/

namespace ScaleCalls.Toml

def isWord (c : Char) : Bool :=
  c.isAlphanum || c == '+' || c == '-' || c == '.' || c == ':' || c == '_'

/-- Digits with single underscores between them, without the underscores. -/
def ungrouped? (isDigit : Char → Bool) : List Char → Option (List Char)
  | [] => none
  | [c] => if isDigit c then some [c] else none
  | c :: '_' :: cs => if isDigit c then (ungrouped? isDigit cs).map (c :: ·) else none
  | c :: cs => if isDigit c then (ungrouped? isDigit cs).map (c :: ·) else none

/-- The number that digits write in a base; letters count from ten on. -/
def numberOf (base : Nat) (digits : List Char) : Nat :=
  digits.foldl (fun n c => base * n + (hexValue? c).getD 0) 0

def splitSign : List Char → Bool × List Char
  | '-' :: cs => (true, cs)
  | '+' :: cs => (false, cs)
  | cs => (false, cs)

/-- The digits of a decimal integer without sign: no zero in front of others. -/
def decimalDigits? (cs : List Char) : Option (List Char) :=
  match cs with
  | ['0'] => some ['0']
  | '0' :: _ => none
  | cs => ungrouped? Char.isDigit cs

def fitting? (i : Int) : Option Int :=
  if -Int.pow 2 63 ≤ i ∧ i < Int.pow 2 63 then some i else none

def isBinary (c : Char) : Bool := c == '0' || c == '1'

def isOctal (c : Char) : Bool := '0' ≤ c && c ≤ '7'

def isHex (c : Char) : Bool := (hexValue? c).isSome

def integer? : List Char → Option Int
  | '0' :: 'x' :: cs => do fitting? (numberOf 16 (← ungrouped? isHex cs))
  | '0' :: 'o' :: cs => do fitting? (numberOf 8 (← ungrouped? isOctal cs))
  | '0' :: 'b' :: cs => do fitting? (numberOf 2 (← ungrouped? isBinary cs))
  | cs => do
    let (negative, cs) := splitSign cs
    let n := numberOf 10 (← decimalDigits? cs)
    fitting? (if negative then -n else n)

/-- The digits of a floating-point number and the power of ten behind them. -/
structure Decimal where
  digits : Nat
  exponent : Int
  deriving Repr, DecidableEq

/-- Half a step above the largest double; from here on a number has no double. -/
def doubleLimit : Nat := Nat.pow 2 1024 - Nat.pow 2 970

/-- The number has no double: it lies at the limit or above. The limit has 309
digits. -/
def Decimal.overflows (d : Decimal) : Bool :=
  let size : Int := (Nat.toDigits 10 d.digits).length + d.exponent
  if d.digits = 0 then false
  else if size < 309 then false
  else if 309 < size then true
  else if 0 ≤ d.exponent then doubleLimit ≤ d.digits * Nat.pow 10 d.exponent.toNat
  else doubleLimit * Nat.pow 10 (-d.exponent).toNat ≤ d.digits

/-- Digits and underscores at the start, and the rest. -/
def spanDigits (cs : List Char) : List Char × List Char :=
  let isPart (c : Char) : Bool := c.isDigit || c == '_'
  (cs.takeWhile isPart, cs.dropWhile isPart)

/-- The digits behind a point, if a point follows. -/
def fraction? : List Char → Option (List Char × List Char)
  | '.' :: cs => do return (← ungrouped? Char.isDigit (spanDigits cs).1, (spanDigits cs).2)
  | cs => some ([], cs)

/-- The exponent behind its letter, up to the end of the word. -/
def exponentOf? (cs : List Char) : Option Int := do
  let (negative, cs) := splitSign cs
  let n := numberOf 10 (← ungrouped? Char.isDigit cs)
  return if negative then -n else n

/-- The exponent that ends a word, if there is one. -/
def exponent? : List Char → Option Int
  | [] => some 0
  | 'e' :: cs => exponentOf? cs
  | 'E' :: cs => exponentOf? cs
  | _ => none

/-- The decimal that a word without sign writes; it has a fraction or an exponent. -/
def decimal? (cs : List Char) : Option Decimal := do
  let (whole, rest) := spanDigits cs
  let whole ← decimalDigits? whole
  if rest.isEmpty then none
  else
    let (fraction, rest) ← fraction? rest
    let exponent ← exponent? rest
    return ⟨numberOf 10 (whole ++ fraction), exponent - fraction.length⟩

/-- The words for numbers that no digits write. -/
def isSpecialFloat (cs : List Char) : Bool :=
  (splitSign cs).2 == ['i', 'n', 'f'] || (splitSign cs).2 == ['n', 'a', 'n']

/-- The word writes a floating-point number. Numbers far below zero count too. -/
def isFloat (cs : List Char) : Bool :=
  isSpecialFloat cs ||
    match decimal? (splitSign cs).2 with
    | none => false
    | some d => (splitSign cs).1 || !d.overflows

def twoDigits? (low high : Nat) (a b : Char) : Option Nat :=
  if a.isDigit && b.isDigit then
    let n := numberOf 10 [a, b]
    if low ≤ n ∧ n ≤ high then some n else none
  else none

def daysIn (year month : Nat) : Nat :=
  if month = 2 then
    if year % 4 = 0 ∧ (year % 100 ≠ 0 ∨ year % 400 = 0) then 29 else 28
  else if month = 4 ∨ month = 6 ∨ month = 9 ∨ month = 11 then 30
  else 31

/-- What follows a date. -/
def date? : List Char → Option (List Char)
  | a :: b :: c :: d :: '-' :: e :: f :: '-' :: g :: h :: rest =>
    if [a, b, c, d].all Char.isDigit then do
      let month ← twoDigits? 1 12 e f
      let _ ← twoDigits? 1 (daysIn (numberOf 10 [a, b, c, d]) month) g h
      return rest
    else none
  | _ => none

/-- What follows the fraction of a second, if there is one. -/
def secondFraction? : List Char → Option (List Char)
  | '.' :: c :: cs => if c.isDigit then some (cs.dropWhile Char.isDigit) else none
  | '.' :: [] => none
  | cs => some cs

/-- What follows a time. A minute may have a leap second. -/
def time? : List Char → Option (List Char)
  | a :: b :: ':' :: c :: d :: ':' :: e :: f :: rest => do
    let _ ← twoDigits? 0 23 a b
    let _ ← twoDigits? 0 59 c d
    let _ ← twoDigits? 0 60 e f
    secondFraction? rest
  | _ => none

def isOffset : List Char → Bool
  | [] => true
  | ['Z'] => true
  | ['z'] => true
  | [sign, a, b, ':', c, d] =>
    (sign == '+' || sign == '-') && (twoDigits? 0 23 a b).isSome && (twoDigits? 0 59 c d).isSome
  | _ => false

/-- The word is a time of day, possibly with a difference to universal time. -/
def isTimeWithOffset (cs : List Char) : Bool := (time? cs).any isOffset

/-- The word is a date, a date and a time, or a time. -/
def isDatetime (cs : List Char) : Bool :=
  time? cs == some [] ||
    match date? cs with
    | some [] => true
    | some (delimiter :: time) =>
      (delimiter == 'T' || delimiter == 't' || delimiter == ' ') && isTimeWithOffset time
    | none => false

def scalar? (word : List Char) : Option Node :=
  if word = "true".toList then some (.boolean true)
  else if word = "false".toList then some (.boolean false)
  else if isDatetime word then some (.datetime (String.ofList word))
  else if isFloat word then some (.float (String.ofList word))
  else (integer? word).map .integer

/-- The word at the start of a text, and the rest. A blank and a digit behind a date
continue it. -/
def spanWord (cs : List Char) : List Char × List Char :=
  let word := cs.takeWhile isWord
  match cs.dropWhile isWord with
  | ' ' :: c :: rest =>
    if date? word == some [] && c.isDigit then
      (word ++ ' ' :: (c :: rest).takeWhile isWord, (c :: rest).dropWhile isWord)
    else (word, ' ' :: c :: rest)
  | rest => (word, rest)

def readScalar? (cs : List Char) : Option (Node × List Char) := do
  return (← scalar? (spanWord cs).1, (spanWord cs).2)

end ScaleCalls.Toml
