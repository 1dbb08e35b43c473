import ScaleCalls.Json.Written

/-!
# Reading JSON

A reader takes characters and yields what it has read together with the
characters behind it. Blanks are the blank, the tab, the line feed and the
carriage return.

## Main definitions

- `Json.read?` — a whole text as a written value
- `Json.ofText?` — a whole text as a value

## Design notes

Values nest, so their reader carries fuel. Going from a value to its items and
back takes two steps and uses up at least one character, hence twice the number
of characters (and a little) is always enough.
-/

namespace ScaleCalls.Json

def isSpace (c : Char) : Bool := c == ' ' || c == '\t' || c == '\n' || c == '\r'

def skipSpace (cs : List Char) : List Char := cs.dropWhile isSpace

/-- The value of a hexadecimal digit in either case. -/
def hexValue? (c : Char) : Option Nat :=
  if c.isDigit then some (c.toNat - 48)
  else if 'a' ≤ c ∧ c ≤ 'f' then some (c.toNat - 87)
  else if 'A' ≤ c ∧ c ≤ 'F' then some (c.toNat - 55)
  else none

def unit? (a b c d : Char) : Option Piece := do
  return .unit (((← hexValue? a) * 16 + (← hexValue? b)) * 256
    + (← hexValue? c) * 16 + (← hexValue? d))

/-- The character behind a backslash and a letter. -/
def unescape? (letter : Char) : Option Char :=
  if letter = '"' then some '"'
  else if letter = '\\' then some '\\'
  else if letter = '/' then some '/'
  else if letter = 'b' then some (Char.ofNat 8)
  else if letter = 'f' then some (Char.ofNat 12)
  else if letter = 'n' then some '\n'
  else if letter = 'r' then some '\r'
  else if letter = 't' then some '\t'
  else none

/-- A text behind its opening quote, up to and with the closing one. -/
def readString? : List Char → Option (List Piece × List Char)
  | [] => none
  | '"' :: cs => some ([], cs)
  | '\\' :: 'u' :: a :: b :: c :: d :: cs => do
    let piece ← unit? a b c d
    let (pieces, rest) ← readString? cs
    return (piece :: pieces, rest)
  | '\\' :: letter :: cs => do
    let char ← unescape? letter
    let (pieces, rest) ← readString? cs
    return (.char char :: pieces, rest)
  | c :: cs =>
    if c.toNat < 32 ∨ c = '\\' then none
    else (readString? cs).map fun p => (.char c :: p.1, p.2)

/-- The digits at the start, and what follows them. -/
def spanDigits (cs : List Char) : List Char × List Char :=
  (cs.takeWhile Char.isDigit, cs.dropWhile Char.isDigit)

/-- The whole digits of a numeral: a zero alone, or digits that start with another. -/
def readWhole? (cs : List Char) : Option (List Char × List Char) :=
  match spanDigits cs with
  | ([], _) => none
  | (['0'], rest) => some (['0'], rest)
  | ('0' :: _, _) => none
  | (digits, rest) => some (digits, rest)

/-- The digits behind a point, if a point follows. -/
def readFraction? : List Char → Option (List Char × List Char)
  | '.' :: cs =>
    match spanDigits cs with
    | ([], _) => none
    | (digits, rest) => some (digits, rest)
  | cs => some ([], cs)

def readExponentDigits? (cs : List Char) : Option (Option Exponent × List Char) :=
  let (negative, cs) := match cs with
    | '-' :: cs => (true, cs)
    | '+' :: cs => (false, cs)
    | cs => (false, cs)
  match spanDigits cs with
  | ([], _) => none
  | (digits, rest) => some (some ⟨negative, digits⟩, rest)

def readExponent? : List Char → Option (Option Exponent × List Char)
  | 'e' :: cs => readExponentDigits? cs
  | 'E' :: cs => readExponentDigits? cs
  | cs => some (none, cs)

def readUnsigned? (negative : Bool) (cs : List Char) : Option (Written × List Char) := do
  let (whole, cs) ← readWhole? cs
  let (fraction, cs) ← readFraction? cs
  let (exponent, cs) ← readExponent? cs
  return (.number ⟨negative, whole, fraction, exponent⟩, cs)

def readScalar? : List Char → Option (Written × List Char)
  | 'n' :: 'u' :: 'l' :: 'l' :: cs => some (.null, cs)
  | 't' :: 'r' :: 'u' :: 'e' :: cs => some (.bool true, cs)
  | 'f' :: 'a' :: 'l' :: 's' :: 'e' :: cs => some (.bool false, cs)
  | '"' :: cs => (readString? cs).map fun p => (.string p.1, p.2)
  | '-' :: cs => readUnsigned? true cs
  | cs => readUnsigned? false cs

mutual

/-- A value; the text starts with its first character. -/
def readValue? : (fuel : Nat) → List Char → Option (Written × List Char)
  | 0, _ => none
  | fuel + 1, '[' :: cs =>
    match skipSpace cs with
    | ']' :: rest => some (.array [], rest)
    | cs => (readItems? fuel cs).map fun p => (.array p.1, p.2)
  | fuel + 1, '\x7b' :: cs =>
    match skipSpace cs with
    | '\x7d' :: rest => some (.object [], rest)
    | cs => (readMembers? fuel cs).map fun p => (.object p.1, p.2)
  | _ + 1, cs => readScalar? cs

/-- The items of an array up to and with its closing bracket; there is at least one. -/
def readItems? : (fuel : Nat) → List Char → Option (List Written × List Char)
  | 0, _ => none
  | fuel + 1, cs => do
    let (item, cs) ← readValue? fuel cs
    match skipSpace cs with
    | ']' :: rest => return ([item], rest)
    | ',' :: cs =>
      let (items, rest) ← readItems? fuel (skipSpace cs)
      return (item :: items, rest)
    | _ => none

/-- The members of an object up to and with its closing brace; there is at least one. -/
def readMembers? : (fuel : Nat) → List Char → Option (List (List Piece × Written) × List Char)
  | 0, _ => none
  | fuel + 1, '"' :: cs => do
    let (key, cs) ← readString? cs
    match skipSpace cs with
    | ':' :: cs =>
      let (value, cs) ← readValue? fuel (skipSpace cs)
      match skipSpace cs with
      | '\x7d' :: rest => return ([(key, value)], rest)
      | ',' :: cs =>
        let (members, rest) ← readMembers? fuel (skipSpace cs)
        return ((key, value) :: members, rest)
      | _ => none
    | _ => none
  | _ + 1, _ => none

end

/-- A text that holds one value and blanks around it. -/
def read? (text : String) : Option Written := do
  let cs := text.toList
  let (value, rest) ← readValue? (2 * cs.length + 2) (skipSpace cs)
  if (skipSpace rest).isEmpty then return value else none

/-- Levels of arrays and objects that a document may have. -/
def maxDepth : Nat := 127

def ofText? (text : String) : Option Json := do
  (← read? text).value? maxDepth

end ScaleCalls.Json
