import ScaleCalls.Scale.Bytes
import ScaleCalls.Solidity.Word.Function

/-!
# Running functions on words

What a function on words returns. Shifts cut off what leaves the word, and a cast to
a byte keeps the low eight bits. A product, a difference or an increment that is no
word is a fault, as is a byte outside `out`.

## Main definitions

- `Word.Fault` — why a run has no result
- `Word.Function.run` — a run of a function
- `Word.runCall` — a call among functions that may call earlier ones

## Design notes

Every loop runs at most `rounds` times. A loop that wants more ends the run with
`Fault.outOfRounds`, so a result never depends on the limit.
-/

namespace ScaleCalls.Solidity

abbrev Word := BitVec 256

namespace Word

/-- Why a run has no result. -/
inductive Fault where
  /-- A name without a value. -/
  | undefined (name : String)
  /-- A number of arguments that is not the number of parameters. -/
  | argumentCount (function : String)
  /-- A product, a difference or a count that is no word. -/
  | overflow
  /-- A byte outside `out`. -/
  | outOfBounds
  /-- A loop that has used up its rounds. -/
  | outOfRounds
  deriving Repr, DecidableEq

/-- The variables of a run, the newest first, and the byte string `out`. -/
structure Frame where
  words : List (String × Word)
  out : Bytes
  deriving Repr, DecidableEq

def Frame.get (frame : Frame) (name : String) : Except Fault Word :=
  match frame.words.lookup name with
  | some value => .ok value
  | none => .error (.undefined name)

def Frame.set (frame : Frame) (name : String) (value : Word) : Frame :=
  { frame with words := (name, value) :: frame.words }

/-- A number as a word, if it is one. -/
def checked (n : Nat) : Except Fault Word :=
  if n < Nat.pow 2 256 then .ok (BitVec.ofNat 256 n) else .error .overflow

def Operation.apply : Operation → Word → Word → Except Fault Word
  | shiftLeft, a, b => .ok (a <<< b)
  | shiftRight, a, b => .ok (a >>> b)
  | or, a, b => .ok (a ||| b)
  | times, a, b => checked (a.toNat * b.toNat)
  | minus, a, b => if b.toNat ≤ a.toNat then .ok (a - b) else .error .overflow

def Expr.value (frame : Frame) : Expr → Except Fault Word
  | var name => frame.get name
  | number n => checked n
  | apply operation left right => do
    let a ← left.value frame
    let b ← right.value frame
    operation.apply a b

def Condition.holds (frame : Frame) : Condition → Except Fault Bool
  | less left right => do
    let a ← left.value frame
    let b ← right.value frame
    return a < b
  | different left right => do
    let a ← left.value frame
    let b ← right.value frame
    return a != b

def lowByte (word : Word) : UInt8 := UInt8.ofNat word.toNat

def Change.apply (frame : Frame) : Change → Except Fault Frame
  | declare name value => return frame.set name (← value.value frame)
  | increment name => return frame.set name (← checked ((← frame.get name).toNat + 1))
  | shiftRight name bits => return frame.set name ((← frame.get name) >>> bits)
  | allocate size => return { frame with out := List.replicate (← size.value frame).toNat 0 }
  | store index value => do
    let i ← index.value frame
    let byte := lowByte (← value.value frame)
    if i.toNat < frame.out.length then return { frame with out := frame.out.set i.toNat byte }
    else throw .outOfBounds

def Change.applyAll (frame : Frame) (changes : List Change) : Except Fault Frame :=
  changes.foldlM Change.apply frame

/-- The frame after a loop that starts in a given one. -/
def repeatWhile (condition : Condition) (changes : List Change) :
    (rounds : Nat) → Frame → Except Fault Frame
  | rounds, frame => do
    if ← condition.holds frame then
      match rounds with
      | 0 => throw .outOfRounds
      | rounds + 1 => repeatWhile condition changes rounds (← Change.applyAll frame changes)
    else return frame

section Body

/-! ## Bodies

`call` gives the results of the functions that a body may call. -/

variable (call : String → List Word → Except Fault Bytes)

def Data.value (frame : Frame) : Data → Except Fault Bytes
  | lowByte word => return [Word.lowByte (← word.value frame)]
  | concat first second => return (← first.value frame) ++ (← second.value frame)
  | .call function arguments => do call function (← arguments.mapM (Expr.value frame))

/-- The result of a body. A body that returns nothing returns `out`. -/
def runBody (rounds : Nat) (frame : Frame) : List Statement → Except Fault Bytes
  | [] => .ok frame.out
  | .change step :: rest => do runBody rounds (← step.apply frame) rest
  | .ifReturn condition value :: rest => do
    if ← condition.holds frame then value.value call frame else runBody rounds frame rest
  | .result value :: _ => value.value call frame
  | .loop start condition step body :: rest => do
    let first ← start.apply frame
    runBody rounds (← repeatWhile condition (body ++ [step]) rounds first) rest

def Function.run (rounds : Nat) (function : Function) (arguments : List Word) :
    Except Fault Bytes :=
  if function.parameters.length = arguments.length then
    runBody call rounds ⟨function.parameters.zip arguments, []⟩ function.body
  else .error (.argumentCount function.name)

end Body

/-- The result of a call. The functions stand with the last one first, and each may
call those behind it. -/
def runCall (rounds : Nat) : List Function → String → List Word → Except Fault Bytes
  | [], name, _ => .error (.undefined name)
  | function :: earlier, name, arguments =>
    if function.name = name then function.run (runCall rounds earlier) rounds arguments
    else runCall rounds earlier name arguments

end Word

end ScaleCalls.Solidity
