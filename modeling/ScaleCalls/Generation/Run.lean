import ScaleCalls.Files.Path
import ScaleCalls.Generation.Report
import ScaleCalls.Metadata.Source
import ScaleCalls.Settings.Basic
import ScaleCalls.Solidity.CallsContract
import ScaleCalls.Solidity.CodecLibrary

/-!
# Generations

A generation turns the metadata of a source into Solidity files: one unit for each
group that was asked for, and, as the settings say, the calls contract and the
library of primitive codecs.

## Main definitions

- `Generator` — settings without problems
- `Generator.run` — a generation for some groups
- `Generation`, `GenerationFault`
-/

namespace ScaleCalls

/-- A file, by its path in the directory for generated files. -/
structure GeneratedFile where
  path : String
  contents : String
  deriving Repr, DecidableEq

/-- What a generation made. -/
structure Generation where
  files : List GeneratedFile
  /-- One unit for each matched group, in order. -/
  units : List Solidity.SourceUnit
  report : Report

/-- Why a generation made nothing. -/
inductive GenerationFault where
  | source (fault : SourceFault)
  /-- None of the names matches a group. -/
  | unknownGroups (names : List String)
  | refusedCall (call : RefusedCall)
  | noCalls
  | settings (fault : SettingsFault)
  deriving Repr, DecidableEq

def GenerationFault.message : GenerationFault → String
  | source fault => s!"metadata provider unavailable: {fault.message}"
  | unknownGroups names => s!"no call group matched: {Solidity.commaSeparated names}"
  | refusedCall call => call.message
  | noCalls => "no calls matched the requested groups"
  | settings fault => s!"configuration error: {fault.message}"

namespace Generation

/-- The file of this name. Paths are compared part by part. -/
def file? (generation : Generation) (name : String) : Option GeneratedFile :=
  generation.files.find? fun f => Path.components f.path == Path.components name

def unit? (generation : Generation) (group : String) : Option Solidity.SourceUnit :=
  generation.units.find? fun u => u.group == group

end Generation

/-- The entries of the calls contract, with names that are unique in it. -/
def Collection.callEntries (collection : Collection) : List Solidity.CallEntry :=
  List.zipWith (fun member call => ⟨member, call.index, call.qualified⟩)
    (Scope.empty.claimAll (collection.calls.map ResolvedCall.functionBase)) collection.calls

/-- Settings without problems. -/
structure Generator where
  settings : Settings
  usable : settings.problem? = none

namespace Generator

def ofSettings (settings : Settings) : Except SettingsFault Generator :=
  match h : settings.problem? with
  | none => .ok ⟨settings, h⟩
  | some problem => .error (.invalid problem)

/-- The header of the files that a snapshot gives. -/
def header (generator : Generator) (source : String) (snapshot : Snapshot) : Solidity.Header :=
  { chain := snapshot.chain
    specName := snapshot.specName
    specVersion := snapshot.specVersion.toNat
    source
    pragma := generator.settings.pragma }

/-- The name of the file for a contract or library. -/
def fileName (name : String) : String := name ++ ".sol"

/-- The units of all matched groups, or the first call that is refused. -/
def units (generator : Generator) (collection : Collection) :
    Except RefusedCall (List Solidity.SourceUnit) :=
  collection.groups.mapM
    (collection.unit generator.settings.policy generator.settings.codecLibrary)

def unitFile (generator : Generator) (header : Solidity.Header) (unit : Solidity.SourceUnit) :
    GeneratedFile :=
  ⟨fileName unit.library, unit.text header generator.settings.codecLibrary⟩

/-- The file of the calls contract, if it is wanted. -/
def callsFiles (generator : Generator) (header : Solidity.Header) (collection : Collection) :
    List GeneratedFile :=
  if generator.settings.emitCallsContract then
    let name := generator.settings.callsContract
    [⟨fileName name, Solidity.CallsContract.text name collection.callEntries header⟩]
  else []

/-- The file of the library of primitive codecs, if it is wanted. -/
def codecFiles (generator : Generator) (header : Solidity.Header) : List GeneratedFile :=
  if generator.settings.emitCodecLibrary then
    let name := generator.settings.codecLibrary
    [⟨fileName name, Solidity.CodecLibrary.text name header⟩]
  else []

def report (source : String) (snapshot : Snapshot) (collection : Collection)
    (units : List Solidity.SourceUnit) (files : List GeneratedFile) : Report :=
  { chain := snapshot.chain
    specName := snapshot.specName
    specVersion := snapshot.specVersion
    source
    groups := collection.groups
    unknownGroups := collection.unknownGroups
    emitted := units.flatMap fun u => u.functions.map Solidity.CallFunction.qualified
    skipped := units.flatMap Solidity.SourceUnit.skipped
    catalogSize := collection.catalog.size
    files := files.map GeneratedFile.path }

/-- The generation for collected calls and their units. -/
def assemble (generator : Generator) (source : String) (snapshot : Snapshot)
    (collection : Collection) (units : List Solidity.SourceUnit) : Generation :=
  let header := generator.header source snapshot
  let files := units.map (generator.unitFile header)
    ++ generator.callsFiles header collection ++ generator.codecFiles header
  ⟨files, units, report source snapshot collection units files⟩

def runOn (generator : Generator) (source : String) (snapshot : Snapshot) (names : List String) :
    Except GenerationFault Generation :=
  let collection := Collection.ofSnapshot snapshot names
  if collection.groups.isEmpty then
    if collection.unknownGroups.isEmpty then .error .noCalls
    else .error (.unknownGroups collection.unknownGroups)
  else
    match generator.units collection with
    | .error call => .error (.refusedCall call)
    | .ok units =>
      if units.all fun u => u.functions.isEmpty then .error .noCalls
      else .ok (generator.assemble source snapshot collection units)

/-- The groups of a generation: those that are asked for, else those of the settings. -/
def wanted (generator : Generator) (names : List String) : List String :=
  if names.isEmpty then generator.settings.groups else names

def run (generator : Generator) (source : Source) (names : List String) :
    Except GenerationFault Generation :=
  match source.content with
  | .error fault => .error (.source fault)
  | .ok snapshot => generator.runOn source.name snapshot (generator.wanted names)

end Generator

end ScaleCalls
