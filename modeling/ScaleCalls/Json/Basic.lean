/-!
# JSON values

A JSON value with integers kept apart from other numbers, and with the members
of objects in the order in which they were written.

## Main definitions

- `Json` — the values
- `Json.Members.put`, `Json.Members.find?` — members by key

## Design notes

A key that is written again keeps its first place and takes its last value, as
`Members.put` does. Integers are those that fit 64 bits, with or without sign;
every other number is a double.
-/

namespace ScaleCalls

/-- A number: an integer of at most 64 bits, or a double. -/
inductive Json.Number where
  | integer (i : Int)
  | real (x : Float)
  deriving Repr, BEq

/-- A JSON value. -/
inductive Json where
  | null
  | bool (b : Bool)
  | number (n : Json.Number)
  | string (s : String)
  | array (items : List Json)
  | object (members : List (String × Json))
  deriving Repr, BEq

namespace Json

abbrev Members := List (String × Json)

namespace Members

/-- Adds a member, or gives the member of this key a new value where it stands. -/
def put (members : Members) (key : String) (value : Json) : Members :=
  match members with
  | [] => [(key, value)]
  | (k, v) :: rest => if k = key then (k, value) :: rest else (k, v) :: put rest key value

/-- The members that a list of pairs writes, one after the other. -/
def ofPairs (pairs : List (String × Json)) : Members :=
  pairs.foldl (fun members p => put members p.1 p.2) []

def find? (members : Members) (key : String) : Option Json :=
  members.lookup key

end Members

end Json

end ScaleCalls
