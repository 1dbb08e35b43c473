/-!
# The policy for unsupported arguments

What to do with a call that has an argument without a layout.
-/

namespace ScaleCalls

/-- What to do with a call that cannot be encoded. -/
inductive Policy where
  /-- Leave the call out, and say so. -/
  | skip
  /-- Give up. -/
  | fail
  deriving Repr, DecidableEq

namespace Policy

def word : Policy → String
  | skip => "skip"
  | fail => "fail"

/-- How messages name a policy. -/
def label : Policy → String
  | skip => "Skip"
  | fail => "Fail"

def ofWord? (text : String) : Option Policy :=
  if text = skip.word then some skip else if text = fail.word then some fail else none

def folded (text : String) : String := String.ofList (text.toList.map Char.toLower)

def ofText? (text : String) : Option Policy := ofWord? (folded text)

def unknownMessage (text : String) : String :=
  s!"Unknown unsupported-argument policy '{folded text}' (expected skip or fail)"

end Policy

end ScaleCalls
