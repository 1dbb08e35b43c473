import ScaleCalls.Solidity.UnitText

/-!
# Functions on words

Solidity functions that take unsigned integers of 256 bits and return bytes, in a
form that can be written as text and can be run.

## Main definitions

- `Word.Expr`, `Word.Condition`, `Word.Data` — words, tests and byte strings
- `Word.Statement` — the statements of a body
- `Word.Function.code` — the lines of a function

## Design notes

A loop changes variables and never returns, so bodies nest no further than one
loop. A function either returns a value, or is a private helper that fills the
byte string `out` and ends at its last statement.
-/

namespace ScaleCalls.Solidity.Word

/-- An operation on two words. -/
inductive Operation where
  | shiftLeft
  | shiftRight
  | or
  | times
  | minus
  deriving Repr, DecidableEq

/-- A word. -/
inductive Expr where
  | var (name : String)
  | number (n : Nat)
  | apply (operation : Operation) (left right : Expr)
  deriving Repr, DecidableEq

/-- A test of words. -/
inductive Condition where
  | less (left right : Expr)
  | different (left right : Expr)
  deriving Repr, DecidableEq

/-- A byte string. -/
inductive Data where
  /-- The lowest byte of a word. -/
  | lowByte (word : Expr)
  | concat (first second : Data)
  /-- The result of another function. -/
  | call (function : String) (arguments : List Expr)
  deriving Repr, DecidableEq

/-- A change of a variable or of the byte string `out`. -/
inductive Change where
  /-- A new variable with its value. -/
  | declare (name : String) (value : Expr)
  /-- One more. -/
  | increment (name : String)
  /-- Drops low bits. -/
  | shiftRight (name : String) (bits : Nat)
  /-- Makes `out` a string of zero bytes. -/
  | allocate (size : Expr)
  /-- Puts the lowest byte of a word into `out`. -/
  | store (index value : Expr)
  deriving Repr, DecidableEq

/-- A statement of a body. -/
inductive Statement where
  | change (step : Change)
  | ifReturn (condition : Condition) (value : Data)
  | result (value : Data)
  /-- Changes that are repeated while a test holds, with a step after each round. -/
  | loop (start : Change) (condition : Condition) (step : Change) (body : List Change)
  deriving Repr, DecidableEq

/-- A function of words. -/
structure Function where
  name : String
  parameters : List String
  /-- A helper is private and returns `out`. -/
  helper : Bool
  body : List Statement
  deriving Repr, DecidableEq

def Operation.text : Operation → String
  | shiftLeft => "<<"
  | shiftRight => ">>"
  | or => "|"
  | times => "*"
  | minus => "-"

mutual

def Expr.text : Expr → String
  | var name => name
  | number n => toString n
  | apply operation left right => s!"{left.operandText} {operation.text} {right.operandText}"

/-- A word as it is written beside an operator: an operation stands in parentheses. -/
def Expr.operandText : Expr → String
  | var name => name
  | number n => toString n
  | apply operation left right =>
    s!"({left.operandText} {operation.text} {right.operandText})"

end

def Condition.text : Condition → String
  | less left right => s!"{left.text} < {right.text}"
  | different left right => s!"{left.text} != {right.text}"

def Data.text : Data → String
  | lowByte word => s!"abi.encodePacked(uint8({word.text}))"
  | concat first second => s!"bytes.concat({first.text}, {second.text})"
  | call function arguments => s!"{function}({commaSeparated (arguments.map Expr.text)})"

/-- A change as it is written, without the mark at its end. -/
def Change.text : Change → String
  | declare name value => s!"uint256 {name} = {value.text}"
  | increment name => s!"{name}++"
  | shiftRight name bits => s!"{name} >>= {bits}"
  | allocate size => s!"out = new bytes({size.text})"
  | store index value => s!"out[{index.text}] = bytes1(uint8({value.text}))"

def Statement.code : Statement → Code
  | .change step => .line s!"{step.text};"
  | ifReturn condition value => .line s!"if ({condition.text}) return {value.text};"
  | .result value => .line s!"return {value.text};"
  | loop start condition step body =>
    .block s!"for ({start.text}; {condition.text}; {step.text})"
      (body.map fun inner => .line s!"{inner.text};")

def Function.head (function : Function) : String :=
  let parameters := commaSeparated (function.parameters.map fun name => s!"uint256 {name}")
  if function.helper then
    s!"function {function.name}({parameters}) private pure returns (bytes memory out)"
  else functionHead function.name parameters "bytes memory"

def Function.code (function : Function) : Code :=
  .block function.head (function.body.map Statement.code)

end ScaleCalls.Solidity.Word
