/-!
# Solidity identifiers

Names from metadata are free text. They are turned into identifiers word by
word, where a word is a longest run of ASCII letters and digits: in Pascal case
every word starts with a capital, in camel case every word but the first. Only
first letters change. An identifier never starts with a digit, and a word that
Solidity keeps for itself gets an underscore at its end.

## Main definitions

- `Solidity.pascal`, `Solidity.camel` — the two cases
- `Solidity.sanitize` — a text with underscores for all other characters
- `Solidity.functionName`, `Solidity.libraryName` — names built from them
-/

namespace ScaleCalls.Solidity

/-- Words that Solidity and its tools do not accept as identifiers. -/
def reservedWords : List String :=
  ["abstract", "address", "after", "alias", "anonymous", "apply", "as", "assembly", "auto",
   "bool", "break", "byte", "bytes", "calldata", "case", "catch", "constant", "constructor",
   "continue", "contract", "copyof", "default", "define", "delete", "do", "else", "emit", "enum",
   "error", "event", "external", "fallback", "false", "final", "for", "function", "if",
   "immutable", "implements", "import", "in", "indexed", "inline", "interface", "internal", "is",
   "let", "library", "macro", "mapping", "match", "memory", "modifier", "mutable", "new", "null",
   "of", "override", "partial", "payable", "pragma", "private", "promise", "public", "pure",
   "receive", "reference", "relocatable", "return", "returns", "sealed", "sizeof", "static",
   "storage", "string", "struct", "super", "supports", "switch", "this", "throw", "true", "try",
   "type", "typedef", "typeof", "uint", "int", "unchecked", "using", "var", "view", "virtual",
   "while"]

/-- A word that may not be an identifier as it stands. -/
def isReserved (word : String) : Bool := reservedWords.contains word

/-- The characters of words: ASCII letters and digits. -/
def isWordChar (c : Char) : Bool := c.isAlphanum

/-- The characters of identifiers: those of words, and the underscore. -/
def isIdentifierChar (c : Char) : Bool := isWordChar c || c == '_'

def sanitize (s : String) : String :=
  String.ofList (s.toList.map fun c => if isIdentifierChar c then c else '_')

/-- The pieces between the characters that belong to no word, empty ones included. -/
def pieces : List Char → List (List Char)
  | [] => [[]]
  | c :: cs => if isWordChar c then (pieces cs).modifyHead (c :: ·) else [] :: pieces cs

def words (cs : List Char) : List (List Char) :=
  (pieces cs).filter fun w => !w.isEmpty

def capitalize : List Char → List Char
  | [] => []
  | c :: cs => c.toUpper :: cs

def uncapitalize : List Char → List Char
  | [] => []
  | c :: cs => c.toLower :: cs

def guardDigit : List Char → List Char
  | [] => []
  | c :: cs => if c.isDigit then '_' :: c :: cs else c :: cs

def guardReserved (word : String) : String :=
  if isReserved word then word ++ "_" else word

/-- Joined words as an identifier; `blank` stands in where there are no words. -/
def finish (blank : Char) (joined : List Char) : String :=
  guardReserved (String.ofList (guardDigit (if joined.isEmpty then [blank] else joined)))

def pascal (s : String) : String :=
  finish 'X' ((words s.toList).flatMap capitalize)

/-- `transfer_allow_death` becomes `transferAllowDeath`. -/
def camel (s : String) : String :=
  finish 'x' <| match words s.toList with
    | [] => []
    | first :: rest => uncapitalize first ++ rest.flatMap capitalize

/-- The name of a field that has only a position. -/
def positional (index : Nat) : String := s!"_{index}"

/-- The name of a call's encoder: group and call in camel case. -/
def functionName (group call : String) : String := s!"{camel group}_{camel call}"

/-- The name of the library that holds a group's encoders. -/
def libraryName (group : String) : String := pascal group ++ "CallEncoder"

/-- A text that may stand as an identifier, reserved or not. -/
def isIdentifier (s : String) : Bool :=
  match s.toList with
  | [] => false
  | c :: cs => !c.isDigit && (c :: cs).all isIdentifierChar

end ScaleCalls.Solidity
