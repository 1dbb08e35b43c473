/-!
# Blanks, comments and line ends

What may stand between the parts of a TOML document. A line ends with a line feed,
or with a carriage return directly in front of one; a carriage return alone is not
allowed anywhere. Control characters other than the tab are not allowed in
comments and texts.

## Main definitions

- `Toml.skipBlanks`, `Toml.skipComment`, `Toml.newline?`, `Toml.endLine?`
- `Toml.skipGap` — blanks, comments and line ends between the items of an array
-/

namespace ScaleCalls.Toml

def isBlank (c : Char) : Bool := c == ' ' || c == '\t'

/-- Characters of comments: the tab and all that is no control character. -/
def isPlain (c : Char) : Bool := c == '\t' || (0x20 ≤ c.toNat && c.toNat != 0x7F)

def skipBlanks (cs : List Char) : List Char := cs.dropWhile isBlank

def newline? : List Char → Option (List Char)
  | '\n' :: cs => some cs
  | '\r' :: '\n' :: cs => some cs
  | _ => none

/-- The characters behind a comment, if one follows. -/
def skipComment : List Char → List Char
  | '#' :: cs => cs.dropWhile isPlain
  | cs => cs

/-- The characters behind the rest of a line that says nothing more; the document
may end here too. -/
def endLine? (cs : List Char) : Option (List Char) :=
  match skipComment (skipBlanks cs) with
  | [] => some []
  | cs => newline? cs

/-- The characters behind blanks, comments and line ends; `inComment` tells whether
the text starts inside of a comment. -/
def skipGap (inComment : Bool) : List Char → List Char
  | [] => []
  | '\r' :: '\n' :: cs => skipGap false cs
  | c :: cs =>
    if c = '\n' then skipGap false cs
    else if inComment then (if isPlain c then skipGap true cs else c :: cs)
    else if c = '#' then skipGap true cs
    else if isBlank c then skipGap false cs
    else c :: cs

end ScaleCalls.Toml
