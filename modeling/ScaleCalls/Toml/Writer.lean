/-!
# Writing TOML values

A text is written in the simplest of the four kinds of quotes that needs no
escapes, in the order: double quotes, single quotes, three double quotes, three
single quotes. A text that cannot do without escapes is written in double quotes,
three of them if it has a line feed. The tab never decides about the quotes, but is
escaped between double ones.

## Main definitions

- `Toml.quoted` — a text in quotes
- `Toml.textArray` — an array of texts
- `Toml.entryLine` — a line with key and value
-/

namespace ScaleCalls.Toml

/-- The length of the longest run of a character; `run` of them stand in front. -/
def longestRun (quote : Char) : (run : Nat) → List Char → Nat
  | run, [] => run
  | run, c :: cs =>
    if c = quote then longestRun quote (run + 1) cs else max run (longestRun quote 0 cs)

/-- Characters that can only be written as escapes. -/
def needsEscape (c : Char) : Bool :=
  (c.toNat < 0x20 && c != '\t' && c != '\n') || c.toNat == 0x7F

def escapeLetter? (c : Char) : Option Char :=
  if c.toNat = 8 then some 'b'
  else if c = '\t' then some 't'
  else if c = '\n' then some 'n'
  else if c.toNat = 12 then some 'f'
  else if c = '\r' then some 'r'
  else if c = '\\' then some '\\'
  else none

def hexDigit (n : Nat) : Char := (Nat.digitChar n).toUpper

def escape (c : Char) : List Char :=
  match escapeLetter? c with
  | some letter => ['\\', letter]
  | none =>
    let n := c.toNat
    ['\\', 'u', hexDigit (n / 4096 % 16), hexDigit (n / 256 % 16), hexDigit (n / 16 % 16),
      hexDigit (n % 16)]

/-- The characters of a text between double quotes. Quotes are escaped once more than
`allowed` follow each other, line feeds unless the text goes over several lines. -/
def escaped (multiLine : Bool) (allowed : Nat) : (run : Nat) → List Char → List Char
  | _, [] => []
  | run, c :: cs =>
    if c = '"' then
      if run < allowed then '"' :: escaped multiLine allowed (run + 1) cs
      else '\\' :: '"' :: escaped multiLine allowed 0 cs
    else if c = '\n' ∧ multiLine then '\n' :: escaped multiLine allowed 0 cs
    else if needsEscape c ∨ (escapeLetter? c).isSome then
      escape c ++ escaped multiLine allowed 0 cs
    else c :: escaped multiLine allowed 0 cs

def basic (cs : List Char) : List Char := '"' :: (escaped false 0 0 cs ++ ['"'])

def literal (cs : List Char) : List Char := '\'' :: (cs ++ ['\''])

/-- A text with a line feed starts on a line of its own. -/
def firstLineEnd (cs : List Char) : List Char := if cs.contains '\n' then ['\n'] else []

def multiBasic (cs : List Char) : List Char :=
  ['"', '"', '"'] ++ firstLineEnd cs ++ escaped true 2 0 cs ++ ['"', '"', '"']

def multiLiteral (cs : List Char) : List Char :=
  ['\'', '\'', '\''] ++ firstLineEnd cs ++ cs ++ ['\'', '\'', '\'']

def quotedChars (cs : List Char) : List Char :=
  let escapes := cs.any needsEscape
  let backslash := cs.contains '\\'
  let lineFeed := cs.contains '\n'
  let double := longestRun '"' 0 cs
  let single := longestRun '\'' 0 cs
  if !escapes && !backslash && !lineFeed && double == 0 then basic cs
  else if !escapes && !lineFeed && single == 0 then literal cs
  else if !escapes && !backslash && double ≤ 2 then multiBasic cs
  else if !escapes && single ≤ 2 then multiLiteral cs
  else if lineFeed then multiBasic cs
  else basic cs

def quoted (s : String) : String := String.ofList (quotedChars s.toList)

/-- An array of texts: on one line up to one item, else with an item on each line. -/
def textArray : List String → String
  | [] => "[]"
  | [item] => s!"[{quoted item}]"
  | items => "[\n" ++ String.join (items.map fun item => s!"    {quoted item},\n") ++ "]"

def entryLine (key value : String) : String := s!"{key} = {value}\n"

end ScaleCalls.Toml
