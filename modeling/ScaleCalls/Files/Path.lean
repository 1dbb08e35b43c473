/-!
# Paths

Paths are texts with slashes between their parts. Two paths are the same when they
have the same parts; empty parts and dots inside of a path do not count.

## Main definitions

- `Path.pieces`, `Path.names`, `Path.components`
- `Path.ofComponents` — the path with given parts
- `Path.join` — a path within a directory
- `Path.endsInSlash`, `Path.withoutSlashes` — how a path ends
-/

namespace ScaleCalls.Path

/-- The pieces between slashes, empty ones included. -/
def piecesOf : List Char → List (List Char)
  | [] => [[]]
  | c :: cs => if c = '/' then [] :: piecesOf cs else (piecesOf cs).modifyHead (c :: ·)

/-- The pieces between slashes, empty ones included. -/
def pieces (path : String) : List String := (piecesOf path.toList).map String.ofList

def isAbsolute (path : String) : Bool := path.toList.head? == some '/'

/-- The part that stands for the root. -/
def rootPart : String := "/"

/-- The start of a path: the root, or a leading dot. -/
def start (path : String) : List String :=
  if isAbsolute path then [rootPart]
  else if (pieces path).head? = some "." then ["."]
  else []

def names (path : String) : List String :=
  (pieces path).filter fun piece => piece ≠ "" ∧ piece ≠ "."

def components (path : String) : List String := start path ++ names path

def ofComponents : List String → String
  | [] => ""
  | first :: rest =>
    if first = rootPart then rootPart ++ String.intercalate "/" rest
    else String.intercalate "/" (first :: rest)

/-- A path that ends in a slash can only be that of a directory. -/
def endsInSlash (path : String) : Bool := path.toList.getLast? == some '/'

/-- A path without slashes at its end; that of the root keeps its slash. -/
def withoutSlashes (path : String) : String :=
  match path.toList with
  | [] => ""
  | c :: cs => String.ofList (c :: (cs.reverse.dropWhile (· == '/')).reverse)

/-- A path within a directory. An absolute path stays as it is. -/
def join (directory path : String) : String :=
  if isAbsolute path ∨ directory.isEmpty then path
  else if endsInSlash directory then directory ++ path
  else directory ++ "/" ++ path

end ScaleCalls.Path
