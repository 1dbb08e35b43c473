import ScaleCalls.Settings.Basic
import ScaleCalls.Toml.Document
import ScaleCalls.Toml.Writer

/-!
# Settings as TOML documents

Every setting is an entry at the top level of a document. Missing entries take
their defaults, other entries are ignored, and an entry of the wrong kind makes the
whole document unusable.

## Main definitions

- `Settings.ofText` — the settings that a document gives
- `Settings.text?` — the document for settings
-/

namespace ScaleCalls

namespace Toml

def Node.string? : Node → Option String
  | string s => some s
  | _ => none

def Node.boolean? : Node → Option Bool
  | boolean b => some b
  | _ => none

def Node.natural? : Node → Option Nat
  | integer (.ofNat n) => some n
  | _ => none

def Node.strings? : Node → Option (List String)
  | array items => items.mapM Node.string?
  | _ => none

def Node.isEmpty : Node → Bool
  | array items => items.isEmpty
  | table _ entries => entries.isEmpty
  | tables elems => elems.isEmpty
  | _ => false

/-- The policy that a node names: by a text, or by the key of a table whose only
entry holds nothing. -/
def Node.policy? : Node → Option Policy
  | string s => Policy.ofWord? s
  | table _ [(key, value)] => if value.isEmpty then Policy.ofWord? key else none
  | _ => none

/-- The value of an entry; a default where there is none. -/
def Entries.get? {α : Type} (entries : Entries) (key : String) (default : α)
    (read? : Node → Option α) : Option α :=
  match entries.lookup key with
  | none => some default
  | some node => read? node

end Toml

namespace Settings

/-- The settings that the entries of a document give. -/
def ofEntries? (entries : Toml.Entries) : Option Settings := do
  return {
    endpoint := ← Toml.Entries.get? entries "endpoint" default.endpoint Toml.Node.string?
    metadata := ← Toml.Entries.get? entries "metadata" none fun node => node.string?.map some
    outDir := ← Toml.Entries.get? entries "out_dir" default.outDir Toml.Node.string?
    groups := ← Toml.Entries.get? entries "groups" default.groups Toml.Node.strings?
    policy := ← Toml.Entries.get? entries "policy" default.policy Toml.Node.policy?
    pragma := ← Toml.Entries.get? entries "pragma" default.pragma Toml.Node.string?
    callsContract :=
      ← Toml.Entries.get? entries "calls_contract" default.callsContract Toml.Node.string?
    codecLibrary :=
      ← Toml.Entries.get? entries "codec_library" default.codecLibrary Toml.Node.string?
    emitCodecLibrary :=
      ← Toml.Entries.get? entries "emit_codec_library" default.emitCodecLibrary Toml.Node.boolean?
    emitCallsContract :=
      ← Toml.Entries.get? entries "emit_calls_contract" default.emitCallsContract
        Toml.Node.boolean?
    timeoutSecs :=
      ← Toml.Entries.get? entries "timeout_secs" default.timeoutSecs Toml.Node.natural?
    logLevel := ← Toml.Entries.get? entries "log_level" default.logLevel Toml.Node.string? }

/-- The settings that a document gives, usable or not. -/
def parse? (text : String) : Option Settings := do
  ofEntries? (← Toml.ofText? text).entries

def ofText (text : String) : Except SettingsFault Settings :=
  match parse? text with
  | none => .error .notSettings
  | some settings => settings.check

def boolText (b : Bool) : String := if b then "true" else "false"

/-- The entry for the metadata file, if there is one. -/
def metadataLine : Option String → String
  | none => ""
  | some path => Toml.entryLine "metadata" (Toml.quoted path)

/-- The document for settings. Integers of a document fit 63 bits, so a longer
timeout has none. -/
def text? (settings : Settings) : Option String :=
  if Nat.pow 2 63 ≤ settings.timeoutSecs then none
  else some <|
    Toml.entryLine "endpoint" (Toml.quoted settings.endpoint)
    ++ metadataLine settings.metadata
    ++ Toml.entryLine "out_dir" (Toml.quoted settings.outDir)
    ++ Toml.entryLine "groups" (Toml.textArray settings.groups)
    ++ Toml.entryLine "policy" (Toml.quoted settings.policy.word)
    ++ Toml.entryLine "pragma" (Toml.quoted settings.pragma)
    ++ Toml.entryLine "calls_contract" (Toml.quoted settings.callsContract)
    ++ Toml.entryLine "codec_library" (Toml.quoted settings.codecLibrary)
    ++ Toml.entryLine "emit_codec_library" (boolText settings.emitCodecLibrary)
    ++ Toml.entryLine "emit_calls_contract" (boolText settings.emitCallsContract)
    ++ Toml.entryLine "timeout_secs" (toString settings.timeoutSecs)
    ++ Toml.entryLine "log_level" (Toml.quoted settings.logLevel)

end Settings

end ScaleCalls
