/-!
# Splitting at the top level of brackets

A delimiter counts only outside of all brackets. The depth is a plain count of
`<`, `(` and `[` against `>`, `)` and `]`; the three kinds are not told apart, and
an excess of closing brackets makes the depth negative.

## Main definitions

- `TypeName.splitTopLevel` — all pieces between top-level delimiters
- `TypeName.cutLastTopLevel?` — the two sides of the last top-level delimiter
- `TypeName.lastSegment` — what follows the last `::`
-/

namespace ScaleCalls.TypeName

/-- How a character changes the depth, read from left to right. -/
def depthStep (c : Char) : Int :=
  if c = '<' ∨ c = '(' ∨ c = '[' then 1
  else if c = '>' ∨ c = ')' ∨ c = ']' then -1
  else 0

/-- The pieces of a text between the delimiters at depth zero; `depth` is the
depth at its start. There is always at least one piece. -/
def splitTopLevel (delimiter : Char) : Int → List Char → List (List Char)
  | _, [] => [[]]
  | depth, c :: cs =>
    if depth = 0 ∧ c = delimiter then [] :: splitTopLevel delimiter depth cs
    else (splitTopLevel delimiter (depth + depthStep c) cs).modifyHead (c :: ·)

/-- The two sides of the first delimiter at depth zero, for a text that is read
from its end: brackets change the depth the other way round. -/
def cutBackward? (isDelimiter : Char → Bool) :
    Int → List Char → Option (List Char × List Char)
  | _, [] => none
  | depth, c :: cs =>
    if depth = 0 ∧ isDelimiter c then some ([], cs)
    else (cutBackward? isDelimiter (depth - depthStep c) cs).map fun p => (c :: p.1, p.2)

/-- What stands before and after the last delimiter outside of all brackets. -/
def cutLastTopLevel? (isDelimiter : Char → Bool) (cs : List Char) :
    Option (List Char × List Char) :=
  (cutBackward? isDelimiter 0 cs.reverse).map fun p => (p.2.reverse, p.1.reverse)

/-- The characters in front of the first `::`. -/
def beforePathSeparator : List Char → List Char
  | [] => []
  | [c] => [c]
  | c :: d :: cs => if c = ':' ∧ d = ':' then [] else c :: beforePathSeparator (d :: cs)

/-- The characters behind the last `::`, or all of them without one. -/
def lastSegment (cs : List Char) : List Char :=
  (beforePathSeparator cs.reverse).reverse

end ScaleCalls.TypeName
