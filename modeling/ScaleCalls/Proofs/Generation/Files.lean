import ScaleCalls.Generation.Write
import ScaleCalls.Proofs.Files.System
import ScaleCalls.Proofs.Generation.Outcome
import ScaleCalls.Proofs.Solidity.Identifier

/-!
# The files of a generation, and what is on disk afterwards

A generation has one file for each group and the files that the settings ask for. The name
of a group in Pascal case says less than the name itself, and the names in the settings are
compared with each other alone, so two files may have one path. They are written in order:
of the files with one path it is the last one that stays.

## Main definitions

- `FileSystem.Holds` — a path has a text, or a device that took it
- `Generator.fileNames` — what the files of a generation are named after

## Main statements

- `GeneratedFile.stored_writeAll` — which files are there when all are written
- `Generator.nodup_paths_iff_and_last_written` — when no file overwrites another
-/

namespace ScaleCalls

open Solidity

/-! ## Writing several files -/

/-- A text can be read at a path, or it was given to a device that is there. -/
def FileSystem.Holds (system : FileSystem) (path text : String) : Prop :=
  system.read path = .ok text ∨ ∃ device, system.lookup path = .ok (.device device)

theorem FileSystem.Took.holds {system : FileSystem} {path text : String} {place : Location}
    (h : system.Took place text) (hplace : system.LeadsTo path place) :
    system.Holds path text := by
  obtain hfile | ⟨device, hdevice⟩ := h
  · refine .inl (bind_eq_ok.2 ⟨_, hplace.lookup hfile, rfl⟩)
  · exact .inr ⟨device, hplace.lookup hdevice⟩

namespace GeneratedFile

variable {system written : FileSystem} {directory : String} {file other : GeneratedFile}
  {files : List GeneratedFile} {paths : List String}

/-- The path of a file is a name and has no slash in it. -/
def IsPlain (file : GeneratedFile) : Prop := '/' ∉ file.path.toList

/-- A file is where it was written to. -/
def Stored (system : FileSystem) (directory : String) (file : GeneratedFile) : Prop :=
  ∃ place, system.LeadsTo (Path.join directory file.path) place ∧ system.Took place file.contents

theorem stored_of_write
    (h : system.write (Path.join directory file.path) file.contents = .ok written) :
    file.Stored written directory := by
  obtain ⟨place, hplace, hwritten⟩ := FileSystem.exists_written h
  exact ⟨place, hplace.grown hwritten.grown hwritten.working, hwritten.took⟩

/-- A file stays where it is when another one with another name is written. -/
theorem Stored.write (h : file.Stored system directory) (hfile : file.IsPlain)
    (hother : other.IsPlain) (hne : file.path ≠ other.path)
    (hwrite : system.write (Path.join directory other.path) other.contents = .ok written) :
    file.Stored written directory := by
  obtain ⟨place, hplace, htook⟩ := h
  obtain ⟨taken, htaken, hwritten⟩ := FileSystem.exists_written hwrite
  obtain ⟨front, absolute, hjoin⟩ := Path.exists_pieces_join directory
  obtain ⟨hpieces, habsolute⟩ := hjoin file.path hfile
  obtain ⟨hpieces', habsolute'⟩ := hjoin other.path hother
  have happart : place ≠ taken :=
    hplace.ne htaken (habsolute.trans habsolute'.symm) hpieces hpieces' hne
  exact ⟨place, hplace.grown hwritten.grown hwritten.working, htook.kept hwritten happart⟩

theorem run_writeAll_cons (system : FileSystem) (directory : String) (file : GeneratedFile)
    (files : List GeneratedFile) :
    (writeAll directory (file :: files)).run.run system =
      match system.write (Path.join directory file.path) file.contents with
      | .error fault => ⟨.error fault, system⟩
      | .ok written =>
        let rest := (writeAll directory files).run.run written
        ⟨rest.value.map (Path.join directory file.path :: ·), rest.system⟩ := by
  have hstep : (writeAll directory (file :: files)).run =
      .writeText (Path.join directory file.path) file.contents fun answer =>
        match answer with
        | .error fault => .done (.error fault)
        | .ok () => (writeAll directory files).run.andThen fun
          | .error fault => .done (.error fault)
          | .ok paths => .done (.ok (Path.join directory file.path :: paths)) := by
    rw [writeAll]
    refine congrArg (Program.writeText _ _) (funext fun answer => ?_)
    cases answer with
    | error fault => rfl
    | ok =>
      change (writeAll directory files).run.andThen _ = (writeAll directory files).run.andThen _
      refine congrArg _ (funext fun rest => ?_)
      cases rest <;> rfl
  rw [hstep, Program.run]
  cases system.write (Path.join directory file.path) file.contents with
  | error fault => rfl
  | ok written =>
    dsimp only
    rw [Program.run_andThen]
    cases ((writeAll directory files).run.run written).value <;> rfl

theorem exists_write (h : ((writeAll directory (file :: files)).run.run system).value = .ok paths) :
    ∃ written rest, system.write (Path.join directory file.path) file.contents = .ok written ∧
      ((writeAll directory files).run.run written).value = .ok rest ∧
      ((writeAll directory (file :: files)).run.run system).system =
        ((writeAll directory files).run.run written).system := by
  rw [run_writeAll_cons] at h ⊢
  cases hwrite : system.write (Path.join directory file.path) file.contents with
  | error fault => rw [hwrite] at h; cases h
  | ok written =>
    rw [hwrite] at h
    cases hrest : ((writeAll directory files).run.run written).value with
    | error fault => simp [hrest, Except.map] at h
    | ok rest => exact ⟨written, rest, rfl, hrest, rfl⟩

/-- A file with a path of its own is not touched. -/
theorem Stored.writeAll (h : file.Stored system directory) (hfile : file.IsPlain)
    (hplain : ∀ f ∈ files, f.IsPlain) (hne : ∀ f ∈ files, f.path ≠ file.path)
    (hall : ((GeneratedFile.writeAll directory files).run.run system).value = .ok paths) :
    file.Stored ((GeneratedFile.writeAll directory files).run.run system).system directory := by
  induction files generalizing system paths with
  | nil => exact h
  | cons first files ih =>
    obtain ⟨written, rest, hwrite, hrest, hsystem⟩ := exists_write hall
    rw [hsystem]
    refine ih (h.write hfile (hplain first List.mem_cons_self)
      (hne first List.mem_cons_self).symm hwrite) (fun f hf => ?_) (fun f hf => ?_) hrest
    · exact hplain f (List.mem_cons_of_mem _ hf)
    · exact hne f (List.mem_cons_of_mem _ hf)

/-- When all files are written, those are there that have no file with their path behind
them. -/
theorem stored_writeAll (hplain : ∀ f ∈ files, f.IsPlain)
    (hall : ((writeAll directory files).run.run system).value = .ok paths)
    {front back : List GeneratedFile} (hfiles : files = front ++ file :: back)
    (hlast : ∀ later ∈ back, later.path ≠ file.path) :
    file.Stored ((writeAll directory files).run.run system).system directory := by
  induction front generalizing files system paths with
  | nil =>
    subst hfiles
    obtain ⟨written, rest, hwrite, hrest, hsystem⟩ := exists_write hall
    rw [List.nil_append, hsystem]
    exact (stored_of_write hwrite).writeAll (hplain file List.mem_cons_self)
      (fun f hf => hplain f (List.mem_cons_of_mem _ hf)) hlast hrest
  | cons first front ih =>
    subst hfiles
    rw [List.cons_append] at hall hplain ⊢
    obtain ⟨written, rest, hwrite, hrest, hsystem⟩ := exists_write hall
    rw [hsystem]
    exact ih (fun f hf => hplain f (List.mem_cons_of_mem _ hf)) hrest rfl

end GeneratedFile

/-- The files of a generation are written once its directory is there. -/
theorem Generation.exists_made {generation : Generation} {system : FileSystem}
    {directory : String} {paths : List String}
    (h : ((generation.writeAll directory).run.run system).value = .ok paths) :
    ∃ made, system.makeDirectories directory = .ok made ∧
      (generation.writeAll directory).run.run system =
        (GeneratedFile.writeAll directory generation.files).run.run made := by
  have hstep : (generation.writeAll directory).run.run system =
      match system.makeDirectories directory with
      | .error fault => ⟨.error fault, system⟩
      | .ok made => (GeneratedFile.writeAll directory generation.files).run.run made := by
    have hprogram : (generation.writeAll directory).run = .makeDirectories directory fun answer =>
        match answer with
        | .error fault => .done (.error fault)
        | .ok () => (GeneratedFile.writeAll directory generation.files).run := by
      refine congrArg (Program.makeDirectories _) (funext fun answer => ?_)
      cases answer <;> rfl
    rw [hprogram, Program.run]
    cases system.makeDirectories directory <;> rfl
  rw [hstep] at h ⊢
  cases hmade : system.makeDirectories directory with
  | error fault => rw [hmade] at h; cases h
  | ok made => exact ⟨made, rfl, rfl⟩

/-! ## The paths of a generation -/

namespace Generator

variable {generator : Generator} {source : Source} {names : List String} {generation : Generation}

theorem fileName_injective : Function.Injective fileName := fun _ _ h =>
  String.append_left_inj _ |>.1 h

/-- What the files of a generation for some groups are named after. -/
def fileNames (generator : Generator) (groups : List String) : List String :=
  groups.map libraryName ++
    (if generator.settings.emitCallsContract then [generator.settings.callsContract] else []) ++
    (if generator.settings.emitCodecLibrary then [generator.settings.codecLibrary] else [])

/-- A generation that was made is made of the units of the groups that are wanted. -/
theorem exists_of_run (h : generator.run source names = .ok generation) :
    ∃ snapshot units, source.content = .ok snapshot ∧
      generator.units (Collection.ofSnapshot snapshot (generator.wanted names)) = .ok units ∧
      generation = generator.assemble source.name snapshot
        (Collection.ofSnapshot snapshot (generator.wanted names)) units := by
  unfold run at h
  cases hsource : source.content with
  | error fault => rw [hsource] at h; cases h
  | ok snapshot =>
    rw [hsource] at h
    refine ⟨snapshot, ?_⟩
    unfold runOn at h
    dsimp only at h
    split at h
    · split at h <;> cases h
    · cases hunits : generator.units
          (Collection.ofSnapshot snapshot (generator.wanted names)) with
      | error call => rw [hunits] at h; cases h
      | ok units =>
        rw [hunits] at h
        dsimp only at h
        split at h
        · cases h
        · exact ⟨units, rfl, rfl, (Except.ok.inj h).symm⟩

theorem paths_of_completed {sourceName : String} {snapshot : Snapshot} {wanted : List String}
    {pallets : List Pallet}
    (h : Completed generator sourceName snapshot wanted pallets generation) :
    generation.files.map GeneratedFile.path =
      (generator.fileNames generation.report.groups).map fileName := by
  have hlibraries : generation.units.map SourceUnit.library =
      generation.report.groups.map libraryName := by
    rw [h.groups, List.map_map]
    have hsame : List.Forall₂ (fun unit pallet => unit.library = libraryName pallet.name)
        generation.units pallets := h.units.imp fun _ _ hunit => hunit.2.1
    rwa [← List.forall₂_eq_eq_eq, List.forall₂_map_left_iff, List.forall₂_map_right_iff]
  rw [h.files, fileNames, ← hlibraries]
  split <;> split <;> simp [Function.comp_def, fileName]

theorem exists_completed (h : generator.run source names = .ok generation) :
    ∃ snapshot pallets, Completed generator source.name snapshot (generator.wanted names) pallets
      generation ∧ (pallets.map Pallet.name).Nodup := by
  obtain ⟨snapshot, units, -, hunits, rfl⟩ := exists_of_run h
  exact ⟨snapshot, _, completed_assemble source.name hunits,
    (Collection.matches_matchedGroups _ _).nodup⟩

/-- The names in the settings are identifiers and different. -/
theorem usable_names (generator : Generator) :
    isIdentifier generator.settings.callsContract ∧ isIdentifier generator.settings.codecLibrary ∧
      generator.settings.callsContract ≠ generator.settings.codecLibrary := by
  have husable := generator.usable
  unfold Settings.problem? at husable
  split at husable
  · cases husable
  · split at husable
    · cases husable
    · cases hbad : generator.settings.badName? with
      | some bad => rw [hbad] at husable; cases husable
      | none =>
        rw [hbad] at husable
        have hnames := List.find?_eq_none.1 hbad
        refine ⟨by simpa using hnames _ (List.mem_cons_self),
          by simpa using hnames _ (List.mem_cons_of_mem _ List.mem_cons_self), ?_⟩
        intro hsame
        dsimp only at husable
        rw [if_pos hsame] at husable
        cases husable

theorem isPlain_of_run (h : generator.run source names = .ok generation)
    {file : GeneratedFile} (hfile : file ∈ generation.files) : file.IsPlain := by
  obtain ⟨snapshot, pallets, hcompleted, -⟩ := exists_completed h
  have hpath := List.mem_map_of_mem (f := GeneratedFile.path) hfile
  rw [paths_of_completed hcompleted] at hpath
  obtain ⟨name, hname, hfileName⟩ := List.mem_map.1 hpath
  have hidentifier : isIdentifier name := by
    obtain ⟨hcalls, hcodec, -⟩ := generator.usable_names
    simp only [fileNames, List.mem_append, List.mem_map, or_assoc] at hname
    obtain ⟨group, -, rfl⟩ | hname | hname := hname
    · exact isIdentifier_libraryName group
    · split at hname
      · exact List.mem_singleton.1 hname ▸ hcalls
      · cases hname
    · split at hname
      · exact List.mem_singleton.1 hname ▸ hcodec
      · cases hname
  intro hslash
  rw [← hfileName, fileName, String.toList_append, List.mem_append] at hslash
  obtain hslash | hslash := hslash
  · exact absurd (isIdentifierChar_of_isIdentifier hidentifier hslash) (by decide)
  · exact absurd hslash (by decide)

theorem libraryName_inj {a b : String} : libraryName a = libraryName b ↔ pascal a = pascal b :=
  String.append_left_inj _

theorem nodup_fileNames_iff (generator : Generator) {groups : List String} (h : groups.Nodup) :
    (generator.fileNames groups).Nodup ↔
      (∀ a ∈ groups, ∀ b ∈ groups, pascal a = pascal b → a = b) ∧
      (generator.settings.emitCallsContract →
        ∀ g ∈ groups, libraryName g ≠ generator.settings.callsContract) ∧
      (generator.settings.emitCodecLibrary →
        ∀ g ∈ groups, libraryName g ≠ generator.settings.codecLibrary) := by
  have hgroups : (groups.map libraryName).Nodup ↔
      ∀ a ∈ groups, ∀ b ∈ groups, pascal a = pascal b → a = b := by
    simp only [List.nodup_map_iff_inj_on h, libraryName_inj]
  have happart := generator.usable_names.2.2
  rw [← hgroups, fileNames]
  cases generator.settings.emitCallsContract <;> cases generator.settings.emitCodecLibrary <;>
    simp [List.nodup_append, happart]
  all_goals grind

/-- The files of a generation are named after the groups and after what the settings name.
Their paths are different exactly if the groups differ in Pascal case too, and if none of
their libraries is named like the calls contract or the library of primitive codecs. When
all have been written, each file is there that has no file with its path behind it. -/
theorem nodup_paths_iff_and_last_written (generator : Generator) (source : Source)
    (names : List String) (generation : Generation)
    (h : generator.run source names = .ok generation) :
    let groups := generation.report.groups
    let settings := generator.settings
    generation.files.map GeneratedFile.path = (generator.fileNames groups).map fileName ∧
    ((generation.files.map GeneratedFile.path).Nodup ↔
      (∀ a ∈ groups, ∀ b ∈ groups, pascal a = pascal b → a = b) ∧
      (settings.emitCallsContract → ∀ g ∈ groups, libraryName g ≠ settings.callsContract) ∧
      (settings.emitCodecLibrary → ∀ g ∈ groups, libraryName g ≠ settings.codecLibrary)) ∧
    ∀ system directory paths,
      let outcome := (generation.writeAll directory).run.run system
      outcome.value = .ok paths → ∀ front file back, generation.files = front ++ file :: back →
        (∀ later ∈ back, later.path ≠ file.path) →
          outcome.system.Holds (Path.join directory file.path) file.contents := by
  intro groups settings
  obtain ⟨snapshot, pallets, hcompleted, hnodup⟩ := exists_completed h
  have hpaths := paths_of_completed hcompleted
  refine ⟨hpaths, ?_, ?_⟩
  · rw [hpaths, List.nodup_map_iff fileName_injective]
    refine generator.nodup_fileNames_iff ?_
    rw [hcompleted.groups]
    exact hnodup
  · intro system directory paths outcome hok front file back hfiles hlast
    obtain ⟨made, -, hrun⟩ := Generation.exists_made hok
    have hall : ((GeneratedFile.writeAll directory generation.files).run.run made).value =
        .ok paths := hrun ▸ hok
    obtain ⟨place, hplace, htook⟩ :=
      GeneratedFile.stored_writeAll (fun f hf => isPlain_of_run h hf) hall hfiles hlast
    have hsystem : outcome.system =
        ((GeneratedFile.writeAll directory generation.files).run.run made).system :=
      congrArg Program.Outcome.system hrun
    rw [hsystem]
    exact htook.holds hplace

/-- Two groups that are one in Pascal case, each with a call that takes nothing. -/
def twinSnapshot : Snapshot where
  chain := ""
  specName := ""
  specVersion := 0
  pallets := [⟨"foo_bar", 1, [⟨"ping", 0, []⟩]⟩, ⟨"FooBar", 2, [⟨"ping", 0, []⟩]⟩]
  types := []

theorem paths_clash_twins : ∃ generation,
    sample.run ⟨"file", .ok twinSnapshot⟩ ["foo_bar", "FooBar"] = .ok generation ∧
      ¬ (generation.files.map GeneratedFile.path).Nodup := by
  let names := ["foo_bar", "FooBar"]
  have hmem : ∀ pallet ∈ twinSnapshot.pallets,
      pallet ∈ Collection.matchedGroups twinSnapshot names := by
    have hfound : ∀ pallet ∈ twinSnapshot.pallets,
        ∃ name ∈ names, twinSnapshot.pallet? name = some pallet := by decide +kernel
    exact fun pallet hpallet =>
      ((Collection.matches_matchedGroups twinSnapshot names).mem_iff pallet).2
        (hfound pallet hpallet)
  obtain ⟨units, hunits, hempty⟩ := @exists_units sample twinSnapshot names nofun
  have hcall : ∃ call ∈ Collection.matchedCalls twinSnapshot names, Encodable
      (Collection.ofSnapshot twinSnapshot names).catalog call := by
    refine ⟨⟨"ping", "foo_bar", ⟨1, 0⟩, []⟩, List.mem_flatMap.2 ⟨⟨"foo_bar", 1, _⟩,
      hmem _ List.mem_cons_self, List.mem_map.2 ⟨⟨"ping", 0, []⟩, by simp, rfl⟩⟩, nofun⟩
  have hgroups : (Collection.ofSnapshot twinSnapshot names).groups ≠ [] := by
    intro hnil
    have hnone := Collection.groups_eq_nil_iff.1 hnil "FooBar" (by decide)
    exact absurd hnone (by decide +kernel)
  have hrun : sample.run ⟨"file", .ok twinSnapshot⟩ names = .ok (sample.assemble "file"
      twinSnapshot (Collection.ofSnapshot twinSnapshot names) units) := by
    rw [run_ok, show sample.wanted names = names from rfl, runOn_of_units hgroups hunits, if_neg]
    intro hall
    obtain ⟨call, hmember, hencodable⟩ := hcall
    exact hempty.1 hall call hmember hencodable
  refine ⟨_, hrun, fun hnodup => ?_⟩
  obtain ⟨-, hiff, -⟩ := nodup_paths_iff_and_last_written sample _ names _ hrun
  have hsame := (hiff.1 hnodup).1
    "foo_bar" (List.mem_map.2 ⟨_, hmem _ List.mem_cons_self, rfl⟩)
    "FooBar" (List.mem_map.2 ⟨_, hmem _ (List.mem_cons_of_mem _ List.mem_cons_self), rfl⟩)
  exact absurd (hsame (by decide +kernel)) (by decide)

end Generator

end ScaleCalls
