import ScaleCalls.Json.Basic
import ScaleCalls.Json.Shortest

/-!
# JSON texts

Values as text: compact, without any blank, and pretty, with two blanks for each
level and one member or item on a line. Quotes, backslashes and the characters
below the blank are escaped; everything else stands for itself.

## Main definitions

- `Json.compact`, `Json.pretty`
- `Json.quoted` — a text in quotes
-/

namespace ScaleCalls.Json

def hexDigit (n : Nat) : Char :=
  if n < 10 then Char.ofNat (48 + n) else Char.ofNat (87 + n)

/-- The letter that follows the backslash in a short escape. -/
def shortEscape? (c : Char) : Option Char :=
  if c = '"' then some '"'
  else if c = '\\' then some '\\'
  else if c = '\n' then some 'n'
  else if c = '\r' then some 'r'
  else if c = '\t' then some 't'
  else if c.toNat = 8 then some 'b'
  else if c.toNat = 12 then some 'f'
  else none

def escape (c : Char) : List Char :=
  match shortEscape? c with
  | some letter => ['\\', letter]
  | none =>
    if c.toNat < 32 then ['\\', 'u', '0', '0', hexDigit (c.toNat / 16), hexDigit (c.toNat % 16)]
    else [c]

def quoted (s : String) : List Char :=
  '"' :: (s.toList.flatMap escape ++ ['"'])

def Number.text : Number → List Char
  | .integer i => (toString i).toList
  | .real x => (Shortest.render x).toList

def boolText (b : Bool) : List Char :=
  if b then ['t', 'r', 'u', 'e'] else ['f', 'a', 'l', 's', 'e']

mutual

def compactChars : Json → List Char
  | null => ['n', 'u', 'l', 'l']
  | bool b => boolText b
  | number n => n.text
  | string s => quoted s
  | array items => '[' :: (compactItems items ++ [']'])
  | object members => '\x7b' :: (compactMembers members ++ ['\x7d'])

def compactItems : List Json → List Char
  | [] => []
  | [item] => compactChars item
  | item :: items => compactChars item ++ ',' :: compactItems items

def compactMembers : List (String × Json) → List Char
  | [] => []
  | [(key, value)] => quoted key ++ ':' :: compactChars value
  | (key, value) :: members =>
    quoted key ++ ':' :: (compactChars value ++ ',' :: compactMembers members)

end

def compact (value : Json) : String := String.ofList value.compactChars

def newLine (level : Nat) : List Char := '\n' :: List.replicate (2 * level) ' '

mutual

/-- A value whose first character stands at a level of nesting. -/
def prettyChars (level : Nat) : Json → List Char
  | null => ['n', 'u', 'l', 'l']
  | bool b => boolText b
  | number n => n.text
  | string s => quoted s
  | array [] => ['[', ']']
  | array (item :: items) =>
    '[' :: (newLine (level + 1) ++ (prettyItems (level + 1) (item :: items)
      ++ (newLine level ++ [']'])))
  | object [] => ['\x7b', '\x7d']
  | object (member :: members) =>
    '\x7b' :: (newLine (level + 1) ++ (prettyMembers (level + 1) (member :: members)
      ++ (newLine level ++ ['\x7d'])))

def prettyItems (level : Nat) : List Json → List Char
  | [] => []
  | [item] => prettyChars level item
  | item :: items => prettyChars level item ++ ',' :: (newLine level ++ prettyItems level items)

def prettyMembers (level : Nat) : List (String × Json) → List Char
  | [] => []
  | [(key, value)] => quoted key ++ ':' :: ' ' :: prettyChars level value
  | (key, value) :: members =>
    quoted key ++ ':' :: ' ' :: (prettyChars level value
      ++ ',' :: (newLine level ++ prettyMembers level members))

end

def pretty (value : Json) : String := String.ofList (value.prettyChars 0)

end ScaleCalls.Json
