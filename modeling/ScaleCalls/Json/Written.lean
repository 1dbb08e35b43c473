import ScaleCalls.Json.Numeral

/-!
# JSON texts as written

A written value is a JSON text with its spelling: numbers as numerals, texts as
characters and escaped 16-bit units, and objects with all of their members, also
those whose key occurs again. Reading a text yields a written value; only where
a value is used must it denote something, so that parts nobody asks for are
never looked at.

## Main definitions

- `Json.Written` — written values
- `Json.decodePieces?` — the text that characters and units spell
- `Json.Written.value?` — the value that a written value denotes
-/

namespace ScaleCalls.Json

/-- A piece of a written text: a character, or a 16-bit unit in hexadecimal. -/
inductive Piece where
  | char (c : Char)
  | unit (code : Nat)
  deriving Repr, DecidableEq

/-- A value as it is written. -/
inductive Written where
  | null
  | bool (b : Bool)
  | number (n : Numeral)
  | string (pieces : List Piece)
  | array (items : List Written)
  | object (members : List (List Piece × Written))
  deriving Repr

def isHighSurrogate (n : Nat) : Bool := 0xD800 ≤ n && n ≤ 0xDBFF

def isLowSurrogate (n : Nat) : Bool := 0xDC00 ≤ n && n ≤ 0xDFFF

/-- The characters that pieces spell. The halves of a pair of units must follow
each other directly; a half alone spells nothing. -/
def decodePieces? : List Piece → Option (List Char)
  | [] => some []
  | .char c :: rest => (decodePieces? rest).map (c :: ·)
  | .unit high :: .unit low :: rest =>
    if isHighSurrogate high then
      if isLowSurrogate low then
        (decodePieces? rest).map
          (Char.ofNat ((high - 0xD800) * 0x400 + (low - 0xDC00) + 0x10000) :: ·)
      else none
    else if isLowSurrogate high then none
    else (decodePieces? (.unit low :: rest)).map (Char.ofNat high :: ·)
  | .unit n :: rest =>
    if isHighSurrogate n || isLowSurrogate n then none
    else (decodePieces? rest).map (Char.ofNat n :: ·)

def text? (pieces : List Piece) : Option String :=
  (decodePieces? pieces).map String.ofList

namespace Written

mutual

/-- The value of a written value whose arrays and objects lie at most `depth`
levels deep. -/
def value? (depth : Nat) : Written → Option Json
  | null => some .null
  | bool b => some (.bool b)
  | number n => n.value?.map .number
  | string pieces => (text? pieces).map .string
  | array items =>
    match depth with
    | 0 => none
    | depth + 1 => (values? depth items).map .array
  | object members =>
    match depth with
    | 0 => none
    | depth + 1 => (pairs? depth members).map fun pairs => .object (Members.ofPairs pairs)

def values? (depth : Nat) : List Written → Option (List Json)
  | [] => some []
  | item :: items => do return (← value? depth item) :: (← values? depth items)

def pairs? (depth : Nat) : List (List Piece × Written) → Option (List (String × Json))
  | [] => some []
  | (key, value) :: members => do
    return (← text? key, ← value? depth value) :: (← pairs? depth members)

end

end Written

end ScaleCalls.Json
