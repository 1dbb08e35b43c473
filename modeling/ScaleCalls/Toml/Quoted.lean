import ScaleCalls.Toml.Spacing

/-!
# Quoted texts and keys

The four kinds of quoted texts of TOML, and keys. Texts in double quotes know
escapes, texts in single quotes take every character as it is; with three quotes
a text may go over several lines. Line ends inside of a text count as line feeds.

## Main definitions

- `Toml.readQuoted?` — a quoted text of any kind
- `Toml.readKey?` — a dotted key
-/

namespace ScaleCalls.Toml

/-- Characters that stand for themselves between double quotes. -/
def isBasic (c : Char) : Bool := isPlain c && c != '"' && c != '\\'

/-- Characters that stand for themselves between single quotes. -/
def isLiteral (c : Char) : Bool := isPlain c && c != '\''

/-- The value of a hexadecimal digit in either case. -/
def hexValue? (c : Char) : Option Nat :=
  if c.isDigit then some (c.toNat - 48)
  else if 'a' ≤ c ∧ c ≤ 'f' then some (c.toNat - 87)
  else if 'A' ≤ c ∧ c ≤ 'F' then some (c.toNat - 55)
  else none

def hexNumber? (cs : List Char) : Option Nat :=
  cs.foldlM (fun n c => (hexValue? c).map (16 * n + ·)) 0

/-- The character with a code point, where there is one. -/
def charOf? (n : Nat) : Option Char :=
  if n.isValidChar then some (Char.ofNat n) else none

/-- The character that hexadecimal digits stand for. -/
def escapedPoint? (digits : List Char) : Option Char := hexNumber? digits >>= charOf?

/-- The character behind a backslash and a letter. -/
def escaped? (letter : Char) : Option Char :=
  if letter = 'b' then some (Char.ofNat 8)
  else if letter = 't' then some '\t'
  else if letter = 'n' then some '\n'
  else if letter = 'f' then some (Char.ofNat 12)
  else if letter = 'r' then some '\r'
  else if letter = '"' then some '"'
  else if letter = '\\' then some '\\'
  else none

abbrev Reading := Option (List Char × List Char)

/-- Puts characters in front of a text that was read. -/
def Reading.after (cs : List Char) (reading : Reading) : Reading :=
  reading.map fun p => (cs ++ p.1, p.2)

/-- Puts a character in front of a text, when there is one. -/
def Reading.afterChar (c : Option Char) (reading : Reading) : Reading := do
  reading.after [← c]

/-- A text on one line in double quotes, behind the first of them. -/
def readBasic? : List Char → Reading
  | [] => none
  | '"' :: cs => some ([], cs)
  | '\\' :: 'u' :: a :: b :: c :: d :: cs =>
    (readBasic? cs).afterChar (escapedPoint? [a, b, c, d])
  | '\\' :: 'U' :: a :: b :: c :: d :: e :: f :: g :: h :: cs =>
    (readBasic? cs).afterChar (escapedPoint? [a, b, c, d, e, f, g, h])
  | '\\' :: letter :: cs => (readBasic? cs).afterChar (escaped? letter)
  | c :: cs => if isBasic c then (readBasic? cs).after [c] else none

/-- A text on one line in single quotes, behind the first of them. -/
def readLiteral? : List Char → Reading
  | [] => none
  | '\'' :: cs => some ([], cs)
  | c :: cs => if isLiteral c then (readLiteral? cs).after [c] else none

/-- The end of a text in three quotes: up to two more quotes belong to the text. -/
def closing (quote : Char) : List Char → List Char × List Char
  | c :: d :: cs =>
    if c = quote ∧ d = quote then ([quote, quote], cs)
    else if c = quote then ([quote], d :: cs)
    else ([], c :: d :: cs)
  | [c] => if c = quote then ([quote], []) else ([], [c])
  | [] => ([], [])

/-- Only blanks follow up to the end of the line. -/
def endsLine (cs : List Char) : Bool := (newline? (skipBlanks cs)).isSome

/-- A text in three double quotes, behind these quotes. Behind a backslash at the
end of a line, blanks and line ends are skipped. -/
def readMultiBasic? (skipping : Bool) : List Char → Reading
  | [] => none
  | '"' :: '"' :: '"' :: cs => some (closing '"' cs)
  | '\\' :: 'u' :: a :: b :: c :: d :: cs =>
    (readMultiBasic? false cs).afterChar (escapedPoint? [a, b, c, d])
  | '\\' :: 'U' :: a :: b :: c :: d :: e :: f :: g :: h :: cs =>
    (readMultiBasic? false cs).afterChar (escapedPoint? [a, b, c, d, e, f, g, h])
  | '\\' :: letter :: cs =>
    if endsLine (letter :: cs) then readMultiBasic? true (letter :: cs)
    else (readMultiBasic? false cs).afterChar (escaped? letter)
  | '\r' :: '\n' :: cs =>
    if skipping then readMultiBasic? true cs else (readMultiBasic? false cs).after ['\n']
  | c :: cs =>
    if skipping ∧ (isBlank c ∨ c = '\n') then readMultiBasic? true cs
    else if isBasic c ∨ c = '\n' ∨ c = '"' then (readMultiBasic? false cs).after [c]
    else none

/-- A text in three single quotes, behind these quotes. -/
def readMultiLiteral? : List Char → Reading
  | [] => none
  | '\'' :: '\'' :: '\'' :: cs => some (closing '\'' cs)
  | '\r' :: '\n' :: cs => (readMultiLiteral? cs).after ['\n']
  | c :: cs =>
    if isLiteral c ∨ c = '\n' ∨ c = '\'' then (readMultiLiteral? cs).after [c] else none

/-- A text in three quotes may start with a line end that does not belong to it. -/
def skipFirstLineEnd (cs : List Char) : List Char := (newline? cs).getD cs

def readQuoted? : List Char → Reading
  | '"' :: '"' :: '"' :: cs => readMultiBasic? false (skipFirstLineEnd cs)
  | '"' :: cs => readBasic? cs
  | '\'' :: '\'' :: '\'' :: cs => readMultiLiteral? (skipFirstLineEnd cs)
  | '\'' :: cs => readLiteral? cs
  | _ => none

def isBare (c : Char) : Bool := c.isAlphanum || c == '-' || c == '_'

/-- A part of a key: quoted on one line, or bare. -/
def readKeyPart? : List Char → Reading
  | '"' :: cs => readBasic? cs
  | '\'' :: cs => readLiteral? cs
  | cs =>
    match cs.takeWhile isBare with
    | [] => none
    | bare => some (bare, cs.dropWhile isBare)

/-- The parts of a key, with dots between them and blanks around them. -/
def readKeyParts? : (fuel : Nat) → List Char → Option (List String × List Char)
  | 0, _ => none
  | fuel + 1, cs => do
    let (part, cs) ← readKeyPart? (skipBlanks cs)
    match skipBlanks cs with
    | '.' :: cs =>
      let (parts, rest) ← readKeyParts? fuel cs
      return (String.ofList part :: parts, rest)
    | cs => return ([String.ofList part], cs)

def maxDepth : Nat := 79

def readKey? (cs : List Char) : Option (List String × List Char) := do
  let (parts, rest) ← readKeyParts? (cs.length + 1) cs
  if parts.length ≤ maxDepth then return (parts, rest) else none

end ScaleCalls.Toml
