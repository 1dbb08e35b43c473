import ScaleCalls.Solidity.Lowering
import ScaleCalls.Solidity.UnitText

/-!
# Reports

What a generation did, for people to read.

## Main definitions

- `Report`, `Report.summary`
-/

namespace ScaleCalls

/-- What a generation did. -/
structure Report where
  chain : String
  specName : String
  specVersion : UInt32
  source : String
  groups : List String
  unknownGroups : List String
  /-- The calls that have an encoder, with their groups. -/
  emitted : List String
  skipped : List Solidity.SkipNote
  /-- The number of types that were looked at. -/
  catalogSize : Nat
  files : List String
  deriving Repr, DecidableEq

namespace Report

def rule : String := String.ofList (List.replicate 60 '=')

/-- The lines for the arguments that stand in the way of a call. -/
def skippedLines (note : Solidity.SkipNote) : List String :=
  note.args.map fun arg =>
    s!"    - {note.qualified}: {arg.name} ({arg.reference}): {arg.fault.message}"

/-- The lines for all skipped calls, if there are any. -/
def skippedSection (notes : List Solidity.SkipNote) : List String :=
  if notes.isEmpty then []
  else s!"  [!!] Skipped calls:   {notes.length}" :: notes.flatMap skippedLines

/-- The line for the groups that are not there, if there are any. -/
def unknownSection (names : List String) : List String :=
  if names.isEmpty then [] else [s!"  [!!] Unknown groups:  {Solidity.commaSeparated names}"]

def lines (report : Report) : List String :=
  ["", rule, "  Call Encoder Generation Report", rule, "",
    s!"  Chain:      {report.chain} ({report.specName} v{report.specVersion.toNat})",
    s!"  Source:     {report.source}",
    s!"  Groups:     {Solidity.commaSeparated report.groups}",
    "",
    s!"  [OK] Emitted calls:   {report.emitted.length}",
    s!"  [OK] Resolved types:  {report.catalogSize}",
    s!"  [OK] Files:           {report.files.length}"]
  ++ skippedSection report.skipped
  ++ unknownSection report.unknownGroups
  ++ ["", "  Generated:"]
  ++ report.files.map (fun file => s!"    - {file}")
  ++ ["", rule]

def summary (report : Report) : String := Solidity.Code.joinLines report.lines

end Report

end ScaleCalls
