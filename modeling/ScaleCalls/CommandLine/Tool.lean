import ScaleCalls.CommandLine.Arguments
import ScaleCalls.Generation.Write
import ScaleCalls.Metadata.SnapshotText
import ScaleCalls.Settings.Text

/-!
# The tool

What the tool does for its arguments: generate code, write a file with example
settings, or check a file with settings. Options take precedence over the file with
settings, and that one over the defaults.

## Main definitions

- `Settings.withOptions` — settings with options on top
- `Tool.main` — the program for some arguments
- `Exit` — how the tool ends
-/

namespace ScaleCalls

/-- The settings with options on top. A node that is named by an option is preferred
to a metadata file that is not. -/
def Settings.withOptions (settings : Settings) (options : Options) : Settings :=
  { settings with
    endpoint := options.endpoint.getD settings.endpoint
    metadata :=
      match options.metadata with
      | some path => some path
      | none => if options.endpoint.isSome then none else settings.metadata
    outDir := options.outDir.getD settings.outDir
    policy := options.policy.getD settings.policy
    emitCallsContract := settings.emitCallsContract && !options.noCallsContract
    emitCodecLibrary := settings.emitCodecLibrary && !options.noCodecLibrary
    logLevel := options.logLevel.getD settings.logLevel
    groups := if options.groups.isEmpty then settings.groups else options.groups }

/-- How the tool ends. -/
structure Exit where
  code : UInt8
  /-- What went wrong, if anything is to be said about it. -/
  message : Option String
  deriving Repr, DecidableEq

namespace Tool

/-- A program that may stop with a message. -/
abbrev Action (α : Type) := ExceptT String Program α

def print (text : String) : Action Unit := ExceptT.mk (.print text (.done (.ok ())))

/-- Goes on with what a step gives, or stops with a message. -/
def require {ε α : Type} (message : ε → String) (step : Program (Except ε α)) : Action α :=
  ExceptT.mk do
    match ← step with
    | .ok value => return .ok value
    | .error fault => return .error (message fault)

def readText (path : String) : Program (Except FileFault String) := .readText path .done

def readSettings (path : String) : Program (Except SettingsFault Settings) := do
  match ← readText path with
  | .error fault => return .error (.io fault.message)
  | .ok text => return Settings.ofText text

/-- The source that settings name, with what it gives. -/
def fetch (settings : Settings) : Program Source := do
  match settings.metadata with
  | some path =>
    match ← readText path with
    | .error fault => return ⟨path, .error (.io fault.message)⟩
    | .ok text =>
      return ⟨path, match Snapshot.ofText? text with
        | some snapshot => .ok snapshot
        | none => .error .notASnapshot⟩
  | none =>
    match ← Program.askNode settings.endpoint settings.timeoutSecs .done with
    | .ok snapshot => return ⟨settings.endpoint, .ok snapshot⟩
    | .error reason => return ⟨settings.endpoint, .error (.rpc reason)⟩

/-- The settings of a generation, with options on top of the file that they name. -/
def settingsFor (options : Options) : Action Settings := do
  let base ← match options.config with
    | none => pure Settings.default
    | some path =>
      require (fun (fault : SettingsFault) => s!"Failed to load {path}: {fault.message}")
        (readSettings path)
  require SettingsFault.message (return (base.withOptions options).check)

def dump (source : Source) (path : String) : Action Unit := do
  let snapshot ←
    require (fun (fault : SourceFault) => s!"Failed to fetch metadata from {source.name}: {fault.message}")
      (return source.content)
  require (fun (fault : FileFault) => s!"Failed to write {path}: {fault.message}")
    (.writeText path snapshot.toText .done)

def noGroupsMessage : String :=
  "No call groups given (pass pallet names or set `groups` in the config)"

def generate (options : Options) : Action Unit := do
  let settings ← settingsFor options
  if settings.groups.isEmpty then throw noGroupsMessage
  let source ← (fetch settings : Program Source)
  match options.dumpMetadata with
  | none => pure ()
  | some path => dump source path
  let generator ←
    require (fun (fault : SettingsFault) => (GenerationFault.settings fault).message)
      (return Generator.ofSettings settings)
  let generation ← require GenerationFault.message (return generator.run source [])
  let _ ← require
    (fun (fault : FileFault) => s!"Failed to write output to {settings.outDir}: {fault.message}")
    (generation.writeAll settings.outDir).run
  print generation.report.summary

def exampleSettings : Settings :=
  { Settings.default with groups := ["Balances", "PolkadotXcm"], policy := .skip }

def exampleText (settings : String) : String :=
  "# palletgen configuration\n# Generated by palletgen gen-config\n\n" ++ settings ++ "\n"

def writeExample (output : String) : Action Unit := do
  match exampleSettings.text? with
  | none => throw "the settings have no text"
  | some settings =>
    require (fun (fault : FileFault) => s!"Failed to write {output}: {fault.message}")
      (.writeText output (exampleText settings) .done)
    print s!"Generated configuration file: {output}\n"

def settingsLines (settings : Settings) : List String :=
  ["Configuration valid!", "",
    match settings.metadata with
    | some path => s!"Metadata: {path}"
    | none => s!"Endpoint: {settings.endpoint}",
    s!"Output:   {settings.outDir}",
    s!"Policy:   {settings.policy.label}",
    s!"Groups:   {settings.groups.length}"]
  ++ settings.groups.zipIdx.map fun g => s!"  [{g.2}] {g.1}"

def validate (config : String) : Action Unit := do
  let settings ←
    require (fun (fault : SettingsFault) => s!"Configuration invalid: {config}: {fault.message}")
      (readSettings config)
  print (Solidity.Code.joinLines (settingsLines settings))

def perform : Command → Action Unit
  | .generate options => generate options
  | .writeExample output => writeExample output
  | .validate config => validate config

def versionLine : String := "palletgen 1.0.10\n"

def usage : String :=
  "Generate Solidity SCALE call encoders from chain metadata\n\n"
  ++ "Usage: palletgen [OPTIONS] [GROUPS]... [COMMAND]\n\n"
  ++ "Commands: gen-config, validate, help\n"

def main (arguments : List String) : Program Exit := do
  match Request.ofArguments? arguments with
  | none => return ⟨2, none⟩
  | some .version => .print versionLine (.done ⟨0, none⟩)
  | some .help => .print usage (.done ⟨0, none⟩)
  | some (.run command) =>
    match ← (perform command).run with
    | .ok () => return ⟨0, none⟩
    | .error message => return ⟨1, some message⟩

end Tool

end ScaleCalls
