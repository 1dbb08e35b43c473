import ScaleCalls.CommandLine.Tool
import ScaleCalls.Proofs.Generation.Files
import ScaleCalls.Proofs.Metadata.SnapshotText

/-!
# Generating from a file with metadata

The snapshot that a generation used can be written to a file and be used again from there.
Nothing is lost on the way, so the second generation has the units of the first one.

## Main statements

- `Tool.read_dumped` — what is at a path after a snapshot was written to it
- `Generator.map_units_runOn` — what the units of a generation depend on
- `Snapshot.reload_lossless` — a snapshot and the units made of it survive the file
-/

namespace ScaleCalls

open Solidity

namespace Tool

variable {source : Source} {snapshot : Snapshot} {path text : String} {system : FileSystem}

theorem run_dump (h : source.content = .ok snapshot) (path : String) (system : FileSystem) :
    (dump source path).run.run system =
      match system.write path snapshot.toText with
      | .ok written => ⟨.ok (), written⟩
      | .error fault => ⟨.error s!"Failed to write {path}: {fault.message}", system⟩ := by
  rw [dump, h]
  change Program.run system (.writeText path snapshot.toText _) = _
  rw [Program.run]
  cases system.write path snapshot.toText <;> rfl

/-- A path that a snapshot was written to has its text, unless it is that of a device. -/
theorem read_dumped (h : source.content = .ok snapshot)
    (hok : ((dump source path).run.run system).value = .ok ())
    (hdevice : ∀ device,
      ((dump source path).run.run system).system.lookup path ≠ .ok (.device device)) :
    ((dump source path).run.run system).system.read path = .ok snapshot.toText := by
  rw [run_dump h] at hok hdevice ⊢
  cases hwrite : system.write path snapshot.toText with
  | error fault => rw [hwrite] at hok; cases hok
  | ok written =>
    rw [hwrite] at hdevice
    obtain ⟨place, hplace, hwritten⟩ := FileSystem.exists_written hwrite
    obtain hread | ⟨device, hlookup⟩ :=
      hwritten.took.holds (hplace.grown hwritten.grown hwritten.working)
    · exact hread
    · exact absurd hlookup (hdevice device)

theorem fetch_of_read {settings : Settings} (hmetadata : settings.metadata = some path)
    (hread : system.read path = .ok text) (hsnapshot : Snapshot.ofText? text = some snapshot) :
    ((fetch settings).run system).value = ⟨path, .ok snapshot⟩ := by
  rw [fetch, hmetadata]
  change (Program.run system (.readText path _)).value = _
  rw [Program.run, hread]
  change Source.mk path _ = _
  rw [hsnapshot]

end Tool

namespace Generator

theorem units_assemble (generator : Generator) (source : String) (snapshot : Snapshot)
    (collection : Collection) (units : List SourceUnit) :
    (generator.assemble source snapshot collection units).units = units :=
  rfl

/-- The units of a generation do not depend on the name of the source, and of the settings
only on the policy and on the name of the library of primitive codecs. -/
theorem map_units_runOn {first second : Generator}
    (hpolicy : first.settings.policy = second.settings.policy)
    (hcodec : first.settings.codecLibrary = second.settings.codecLibrary)
    (firstName secondName : String) (snapshot : Snapshot) (wanted : List String) :
    (first.runOn firstName snapshot wanted).map Generation.units =
      (second.runOn secondName snapshot wanted).map Generation.units := by
  have hunits : ∀ collection, first.units collection = second.units collection := by
    intro collection
    rw [units, units, hpolicy, hcodec]
  rw [runOn, runOn, hunits]
  generalize Collection.ofSnapshot snapshot wanted = collection
  split
  · split <;> rfl
  · cases second.units collection with
    | error call => rfl
    | ok units =>
      dsimp only
      split
      · rfl
      · rw [Except.map, Except.map, units_assemble, units_assemble]

end Generator

/-- A snapshot that was read from a text or made of a registry, and has no doubles in its
definitions, is given back by its text. So a generation that reads the file to which it was
written, with settings that are otherwise the same, ends with the same units or with the same
fault as the generation that wrote it. -/
theorem Snapshot.reload_lossless (snapshot : Snapshot)
    (hfrom : (∃ text, ofText? text = some snapshot) ∨
      ∃ registry chain specName specVersion groups,
        Registry.snapshot registry chain specName specVersion groups = snapshot)
    (hreal : ∀ entry ∈ snapshot.types, ∀ definition ∈ entry.definition,
      definition.hasReal = false) :
    ofText? snapshot.toText = some snapshot ∧
    ∀ (online offline : Generator) (source : Source) (path : String) (system : FileSystem)
      (names : List String), source.content = .ok snapshot →
      offline.settings = { online.settings with metadata := some path } →
      let dumped := (Tool.dump source path).run.run system
      dumped.value = .ok () → (∀ device, dumped.system.lookup path ≠ .ok (.device device)) →
      let reloaded := ((Tool.fetch offline.settings).run dumped.system).value
      reloaded.content = .ok snapshot ∧
        (offline.run reloaded names).map Generation.units =
          (online.run source names).map Generation.units := by
  have hfits : ∀ entry ∈ snapshot.types, entry.Fits := by
    obtain ⟨text, htext⟩ | ⟨registry, chain, specName, specVersion, groups, rfl⟩ := hfrom
    · exact fits_of_ofText? htext hreal
    · exact registry.fits_snapshot chain specName specVersion groups
  have hreload : ofText? snapshot.toText = some snapshot := ofText?_toText hfits
  refine ⟨hreload, ?_⟩
  intro online offline source path system names hsource hsettings dumped hok hdevice reloaded
  have hmetadata : offline.settings.metadata = some path := by rw [hsettings]
  have hreloaded : reloaded = ⟨path, .ok snapshot⟩ :=
    Tool.fetch_of_read hmetadata (Tool.read_dumped hsource hok hdevice) hreload
  have hwanted : offline.wanted names = online.wanted names := by
    rw [Generator.wanted, hsettings, Generator.wanted]
  rw [hreloaded]
  refine ⟨rfl, ?_⟩
  rw [Generator.run, Generator.run, hsource]
  dsimp only
  rw [hwanted]
  exact Generator.map_units_runOn (by rw [hsettings]) (by rw [hsettings]) path source.name
    snapshot _

/-- A text with one call and one type, whose fields are not in the order of their names. -/
def Snapshot.sampleText : String :=
  "\x7b\"pallets\":[\x7b\"name\":\"P\",\"index\":1,\"calls\":[\x7b\"name\":\"c\",\"index\":0\x7d]\x7d]," ++
    "\"types\":[\x7b\"id\":0,\"name\":\"A\\n\",\"def\":\x7b\"y\":\"u8\",\"x\":\"A\"\x7d\x7d]\x7d"

theorem Snapshot.reload_lossless_sample : ∃ snapshot offline,
    ofText? sampleText = some snapshot ∧ ofText? snapshot.toText = some snapshot ∧
      let source : Source := ⟨"node", .ok snapshot⟩
      let dumped := (Tool.dump source "m.json").run.run (FileSystem.ofFiles [])
      let reloaded := ((Tool.fetch { Settings.default with metadata := some "m.json" }).run
        dumped.system).value
      (Generator.run offline reloaded ["P"]).map Generation.units =
        (Generator.sample.run source ["P"]).map Generation.units := by
  have hread : (ofText? sampleText).any fun s =>
      s.types.all fun e => e.definition.all fun d => !d.hasReal := by
    decide +kernel
  cases htext : ofText? sampleText with
  | none => rw [htext] at hread; cases hread
  | some snapshot =>
    rw [htext] at hread
    have hreal : ∀ entry ∈ snapshot.types, ∀ definition ∈ entry.definition,
        definition.hasReal = false := by
      simpa [Option.all_eq_true] using hread
    let offline : Generator :=
      ⟨{ Settings.default with metadata := some "m.json" }, by decide +kernel⟩
    obtain ⟨hreload, hunits⟩ := reload_lossless snapshot (.inl ⟨sampleText, htext⟩) hreal
    refine ⟨snapshot, offline, rfl, hreload, ?_⟩
    -- there is no file of this name yet
    obtain ⟨written, hwrite, hlookup⟩ : ∃ written,
        (FileSystem.ofFiles []).write "m.json" snapshot.toText = .ok written ∧
          written.lookup "m.json" = .ok (.file snapshot.toText) := ⟨_, rfl, rfl⟩
    have hdumped : (Tool.dump ⟨"node", .ok snapshot⟩ "m.json").run.run (FileSystem.ofFiles []) =
        ⟨.ok (), written⟩ := by
      rw [Tool.run_dump rfl, hwrite]
    refine (hunits Generator.sample offline _ "m.json" _ ["P"] rfl rfl ?_ ?_).2
    · rw [hdumped]
    · intro device hdevice
      rw [hdumped, hlookup] at hdevice
      cases hdevice

end ScaleCalls
