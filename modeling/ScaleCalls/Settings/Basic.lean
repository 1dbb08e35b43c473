import ScaleCalls.Calls.Policy
import ScaleCalls.Solidity.Identifier
import ScaleCalls.Text.Blank

/-!
# Settings

What a generation needs to know besides the metadata: where the metadata comes
from, what to generate, and how the generated code is named.

## Main definitions

- `Settings`, `Settings.default`
- `SettingsProblem` — what makes settings unusable
- `Settings.problem?` — the first problem of some settings
- `Settings.withMetadata`, `withOutDir`, `withPolicy`, `addGroup` — single changes
-/

namespace ScaleCalls

/-- The settings of a generation. -/
structure Settings where
  /-- The address of a node. -/
  endpoint : String
  /-- A file with a snapshot, which is preferred to the node. -/
  metadata : Option String
  /-- The directory for generated files. -/
  outDir : String
  /-- The groups of calls, in any case. -/
  groups : List String
  policy : Policy
  /-- The compiler versions that generated code accepts. -/
  pragma : String
  /-- The name of the calls contract. -/
  callsContract : String
  /-- The name of the library with the primitive codecs. -/
  codecLibrary : String
  emitCodecLibrary : Bool
  emitCallsContract : Bool
  /-- How long a node may take to answer, in seconds. -/
  timeoutSecs : Nat
  logLevel : String
  deriving Repr, DecidableEq

/-- What makes settings unusable. -/
inductive SettingsProblem where
  | badEndpoint (endpoint : String)
  | emptyPragma
  /-- The name of a generated contract or library is no identifier. -/
  | notAnIdentifier (key : String) (name : String)
  | sameNames
  | zeroTimeout
  | emptyGroup (position : Nat)
  | unknownPolicy (text : String)
  deriving Repr, DecidableEq

def SettingsProblem.message : SettingsProblem → String
  | badEndpoint endpoint =>
    s!"Endpoint '{endpoint}' must start with ws://, wss://, http:// or https://"
  | emptyPragma => "Empty Solidity pragma"
  | notAnIdentifier key name => s!"{key} '{name}' is not a valid Solidity identifier"
  | sameNames => "calls_contract and codec_library must differ"
  | zeroTimeout => "timeout_secs must be > 0"
  | emptyGroup position => s!"Group {position} is empty"
  | unknownPolicy text => Policy.unknownMessage text

/-- Why there are no usable settings. -/
inductive SettingsFault where
  /-- A file could not be read; the text says why. -/
  | io (reason : String)
  /-- A file holds no settings. -/
  | notSettings
  | invalid (problem : SettingsProblem)
  deriving Repr, DecidableEq

def SettingsFault.message : SettingsFault → String
  | io reason => s!"I/O error: {reason}"
  | notSettings => "TOML parse error"
  | invalid problem => s!"Invalid configuration: {problem.message}"

namespace Settings

/-- The settings that hold when nothing else is said. -/
def default : Settings where
  endpoint := "wss://westend-asset-hub-rpc.polkadot.io"
  metadata := none
  outDir := "contracts"
  groups := []
  policy := .skip
  pragma := "^0.8.24"
  callsContract := "PalletCalls"
  codecLibrary := "ScaleCodec"
  emitCodecLibrary := true
  emitCallsContract := true
  timeoutSecs := 30
  logLevel := "info"

/-- The schemes that the address of a node may have. -/
def schemes : List String := ["ws://", "wss://", "http://", "https://"]

/-- The address of a node starts with one of the schemes. -/
def isEndpoint (endpoint : String) : Bool :=
  schemes.any fun scheme => scheme.toList.isPrefixOf endpoint.toList

/-- The first name that is no identifier, with the key that gives it. -/
def badName? (settings : Settings) : Option (String × String) :=
  [("calls_contract", settings.callsContract), ("codec_library", settings.codecLibrary)].find?
    fun named => !Solidity.isIdentifier named.2

/-- The first problem of the settings. The endpoint matters only where no metadata
file is given. -/
def problem? (settings : Settings) : Option SettingsProblem :=
  if settings.metadata.isNone ∧ !isEndpoint settings.endpoint then
    some (.badEndpoint settings.endpoint)
  else if Text.allBlank settings.pragma then some .emptyPragma
  else
    match settings.badName? with
    | some (key, name) => some (.notAnIdentifier key name)
    | none =>
      if settings.callsContract = settings.codecLibrary then some .sameNames
      else if settings.timeoutSecs = 0 then some .zeroTimeout
      else (settings.groups.findIdx? Text.allBlank).map .emptyGroup

def check (settings : Settings) : Except SettingsFault Settings :=
  match settings.problem? with
  | some problem => .error (.invalid problem)
  | none => .ok settings

def withMetadata (settings : Settings) (path : String) : Settings :=
  { settings with metadata := some path }

/-- The settings with another directory for generated files. -/
def withOutDir (settings : Settings) (directory : String) : Settings :=
  { settings with outDir := directory }

def withPolicy (settings : Settings) (policy : Policy) : Settings :=
  { settings with policy }

def addGroup (settings : Settings) (group : String) : Settings :=
  { settings with groups := settings.groups ++ [group] }

def policyOfText (text : String) : Except SettingsFault Policy :=
  match Policy.ofText? text with
  | some policy => .ok policy
  | none => .error (.invalid (.unknownPolicy text))

end Settings

end ScaleCalls
