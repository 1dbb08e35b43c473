import ScaleCalls.Toml.Scalar

/-!
# Reading TOML documents

A document is a sequence of lines: key and value, header, or neither. The lines
are read first and then build the tree one after the other, so whatever two lines
contradict each other, the document as a whole has no tree.

## Main definitions

- `Toml.Line` — the lines that say something
- `Toml.readLines?` — the lines of a document
- `Toml.ofText?` — the tree of a document

## Design notes

Going from a value to the values inside and back takes three steps at most and
uses up a character, which the fuel is taken from. Levels of brackets are counted
apart, by what is left of `maxDepth`.
-/

namespace ScaleCalls.Toml

mutual

/-- A value; `depth` more levels of brackets are allowed. -/
def readValue? : (fuel : Nat) → (depth : Nat) → List Char → Option (Node × List Char)
  | 0, _, _ => none
  | _ + 1, _, '"' :: cs => (readQuoted? ('"' :: cs)).map fun p => (.string (String.ofList p.1), p.2)
  | _ + 1, _, '\'' :: cs =>
    (readQuoted? ('\'' :: cs)).map fun p => (.string (String.ofList p.1), p.2)
  | fuel + 1, depth + 1, '[' :: cs => (readItems? fuel depth cs).map fun p => (.array p.1, p.2)
  | fuel + 1, depth + 1, '\x7b' :: cs =>
    match skipBlanks cs with
    | '\x7d' :: rest => some (.table .inline [], rest)
    | cs => do
      let (pairs, rest) ← readPairs? fuel depth cs
      return (← Node.ofInline? pairs, rest)
  | _ + 1, _, cs => readScalar? cs

/-- The items of an array up to and with its closing bracket. -/
def readItems? : (fuel : Nat) → (depth : Nat) → List Char → Option (List Node × List Char)
  | 0, _, _ => none
  | fuel + 1, depth, cs =>
    match skipGap false cs with
    | ']' :: rest => some ([], rest)
    | cs => do
      let (item, cs) ← readValue? fuel depth cs
      match skipGap false cs with
      | ']' :: rest => return ([item], rest)
      | ',' :: cs =>
        let (items, rest) ← readItems? fuel depth cs
        return (item :: items, rest)
      | _ => none

/-- The pairs of a table in braces up to and with its closing brace; there is at
least one, and none is missing behind a comma. -/
def readPairs? : (fuel : Nat) → (depth : Nat) → List Char →
    Option (List (List String × String × Node) × List Char)
  | 0, _, _ => none
  | fuel + 1, depth, cs => do
    let (path, cs) ← readKey? cs
    let key ← path.getLast?
    match cs with
    | '=' :: cs =>
      let (value, cs) ← readValue? fuel depth (skipBlanks cs)
      match skipBlanks cs with
      | '\x7d' :: rest => return ([(path.dropLast, key, value)], rest)
      | ',' :: cs =>
        let (pairs, rest) ← readPairs? fuel depth cs
        return ((path.dropLast, key, value) :: pairs, rest)
      | _ => none
    | _ => none

end

/-- A line that says something. -/
inductive Line where
  /-- A key, with the dotted path in front of it, and its value. -/
  | entry (path : List String) (key : String) (value : Node)
  /-- A header in brackets. -/
  | header (path : List String)
  /-- A header in double brackets. -/
  | element (path : List String)
  deriving Repr

/-- A header behind its opening bracket, and the lines that follow. -/
def readHeader? : List Char → Option (Line × List Char)
  | '[' :: cs => do
    let (path, cs) ← readKey? cs
    match cs with
    | ']' :: ']' :: rest => return (.element path, ← endLine? rest)
    | _ => none
  | cs => do
    let (path, cs) ← readKey? cs
    match cs with
    | ']' :: rest => return (.header path, ← endLine? rest)
    | _ => none

/-- A key and its value, and the lines that follow. -/
def readEntry? (cs : List Char) : Option (Line × List Char) := do
  let (path, cs) ← readKey? cs
  let key ← path.getLast?
  match cs with
  | '=' :: cs =>
    let (value, cs) ← readValue? (3 * cs.length + 3) maxDepth (skipBlanks cs)
    return (.entry path.dropLast key value, ← endLine? cs)
  | _ => none

def readLines? : (fuel : Nat) → List Char → Option (List Line)
  | 0, _ => none
  | fuel + 1, cs =>
    match skipBlanks cs with
    | [] => some []
    | '#' :: cs => do readLines? fuel (← endLine? ('#' :: cs))
    | '\n' :: cs => readLines? fuel cs
    | '\r' :: '\n' :: cs => readLines? fuel cs
    | '[' :: cs => do
      let (line, rest) ← readHeader? cs
      return line :: (← readLines? fuel rest)
    | cs => do
      let (line, rest) ← readEntry? cs
      return line :: (← readLines? fuel rest)

/-- A tree, and the path of the table that entries go to. -/
structure Cursor where
  tree : Node
  path : List String

def Cursor.apply? (cursor : Cursor) : Line → Option Cursor
  | .entry path key value => do
    let edit (table : Node) : Option Node := table.assign? path key value
    return ⟨← cursor.tree.descend? false edit cursor.path, cursor.path⟩
  | .header path => do return ⟨← cursor.tree.open? path, path⟩
  | .element path => do return ⟨← cursor.tree.append? path, path⟩

def ofLines? (lines : List Line) : Option Node := do
  return (← lines.foldlM Cursor.apply? ⟨.root, []⟩).tree

/-- The characters behind a byte order mark, if there is one. -/
def skipMark : List Char → List Char
  | '\uFEFF' :: cs => cs
  | cs => cs

def ofText? (text : String) : Option Node := do
  let cs := skipMark text.toList
  ofLines? (← readLines? (cs.length + 1) cs)

end ScaleCalls.Toml
