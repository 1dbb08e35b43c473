/-!
# Code as lines

Solidity text as lines and blocks. A block is a head, a body between braces and
four blanks of indentation for each line of the body. Texts inside a line are
written as they are.

## Main definitions

- `Solidity.Code` — lines and blocks
- `Code.text` — the text of a list of them
-/

namespace ScaleCalls.Solidity

/-- A piece of code that fills whole lines. -/
inductive Code where
  /-- An empty line. -/
  | blank
  | line (text : String)
  /-- A head with a body in braces. -/
  | block (head : String) (body : List Code)
  deriving Repr

namespace Code

def indentation (depth : Nat) : String := String.ofList (List.replicate (4 * depth) ' ')

mutual

def lines (depth : Nat) : Code → List String
  | blank => [""]
  | line text => [indentation depth ++ text]
  | block head body =>
    (indentation depth ++ head ++ " \x7b") :: (linesOf (depth + 1) body ++
      [indentation depth ++ "\x7d"])

/-- The lines of several pieces of code at a depth. -/
def linesOf (depth : Nat) : List Code → List String
  | [] => []
  | code :: codes => lines depth code ++ linesOf depth codes

end

/-- Lines as a text, each with a line feed at its end. -/
def joinLines : List String → String
  | [] => ""
  | first :: rest => first ++ "\n" ++ joinLines rest

def text (codes : List Code) : String := joinLines (linesOf 0 codes)

end Code

end ScaleCalls.Solidity
