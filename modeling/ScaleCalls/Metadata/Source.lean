import ScaleCalls.Metadata.Snapshot

/-!
# Where metadata comes from

## Main definitions

- `Endpoint.httpAddress` — where a node answers requests
- `SourceFault` — why a source gives no metadata
- `Source` — what a source gives, and how it is named in generated files
-/

namespace ScaleCalls

/-- The beginning of an address is replaced when it is the given one. -/
def replaceStart? (old new address : String) : Option String :=
  if old.toList.isPrefixOf address.toList then
    some (new ++ String.ofList (address.toList.drop old.length))
  else none

/-- The address at which a node answers requests: the web socket address of a node
serves plain requests at the same address. -/
def Endpoint.httpAddress (endpoint : String) : String :=
  ((replaceStart? "wss://" "https://" endpoint).or
    (replaceStart? "ws://" "http://" endpoint)).getD endpoint

/-- Why a source gives no metadata. -/
inductive SourceFault where
  /-- A file could not be read; the text says why. -/
  | io (reason : String)
  /-- A file holds no snapshot. -/
  | notASnapshot
  /-- A node could not be asked. -/
  | rpc (reason : String)
  /-- The answer of a node could not be understood. -/
  | decode (reason : String)
  deriving Repr, DecidableEq

def SourceFault.message : SourceFault → String
  | io reason => s!"I/O error: {reason}"
  | notASnapshot => "snapshot parse error"
  | rpc reason => s!"RPC error: {reason}"
  | decode reason => s!"metadata decode error: {reason}"

/-- A source of metadata: its name, and what it gives. -/
structure Source where
  name : String
  content : Except SourceFault Snapshot

namespace Source

/-- The name of a snapshot that is at hand already. -/
def inMemoryName : String := "in-memory snapshot"

def ofSnapshot (snapshot : Snapshot) : Source := ⟨inMemoryName, .ok snapshot⟩

end Source

end ScaleCalls
