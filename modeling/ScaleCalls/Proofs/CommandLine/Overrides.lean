import Mathlib.Logic.ExistsUnique
import ScaleCalls.CommandLine.Tool

/-!
# Options on top of a file with settings

The settings of a generation are those of a file, or the defaults, with the values of the
options in their places. What the file gives is checked when it is read, before anything is
replaced in it: so an option cannot make up for a file that is no good, and both the file's
settings and those with the options on top have to be usable.

## Main definitions

- `Settings.Overlaid` — settings with the values of the options in their places
- `Tool.StartsWith` — the settings that the options are put on top of

## Main statements

- `Settings.overlaid_iff` — there are just one such settings
- `Tool.settingsFor_eq_ok_iff` — when there are settings for a generation, and which
-/

namespace ScaleCalls

/-- Settings with the values of the options in their places. A node that is named takes the
place of the metadata file, unless such a file is named as well. -/
structure Settings.Overlaid (base : Settings) (options : Options) (merged : Settings) : Prop where
  endpoint : merged.endpoint = options.endpoint.getD base.endpoint
  metadata_given : ∀ path, options.metadata = some path → merged.metadata = some path
  metadata_cleared : ∀ endpoint, options.metadata = none → options.endpoint = some endpoint →
    merged.metadata = none
  metadata_kept : options.metadata = none → options.endpoint = none →
    merged.metadata = base.metadata
  outDir : merged.outDir = options.outDir.getD base.outDir
  policy : merged.policy = options.policy.getD base.policy
  logLevel : merged.logLevel = options.logLevel.getD base.logLevel
  groups_given : options.groups ≠ [] → merged.groups = options.groups
  groups_kept : options.groups = [] → merged.groups = base.groups
  emitCallsContract : merged.emitCallsContract ↔ base.emitCallsContract ∧ !options.noCallsContract
  emitCodecLibrary : merged.emitCodecLibrary ↔ base.emitCodecLibrary ∧ !options.noCodecLibrary
  pragma : merged.pragma = base.pragma
  callsContract : merged.callsContract = base.callsContract
  codecLibrary : merged.codecLibrary = base.codecLibrary
  timeoutSecs : merged.timeoutSecs = base.timeoutSecs

theorem Settings.overlaid_withOptions (base : Settings) (options : Options) :
    Overlaid base options (base.withOptions options) where
  endpoint := rfl
  metadata_given := fun path h => by rw [withOptions, h]
  metadata_cleared := fun endpoint h hendpoint => by rw [withOptions, h, hendpoint]; rfl
  metadata_kept := fun h hendpoint => by rw [withOptions, h, hendpoint]; rfl
  outDir := rfl
  policy := rfl
  logLevel := rfl
  groups_given := fun h => if_neg (mt List.isEmpty_iff.1 h)
  groups_kept := fun h => if_pos (List.isEmpty_iff.2 h)
  emitCallsContract := Bool.and_eq_true_iff
  emitCodecLibrary := Bool.and_eq_true_iff
  pragma := rfl
  callsContract := rfl
  codecLibrary := rfl
  timeoutSecs := rfl

/-- With the values of the options in their places, nothing else is left open. -/
theorem Settings.overlaid_iff {base merged : Settings} {options : Options} :
    base.Overlaid options merged ↔ merged = base.withOptions options := by
  constructor
  · intro h
    have hmetadata : merged.metadata = (base.withOptions options).metadata := by
      have hspec := overlaid_withOptions base options
      cases hgiven : options.metadata with
      | some path => rw [h.metadata_given path hgiven, hspec.metadata_given path hgiven]
      | none =>
        cases hnode : options.endpoint with
        | some endpoint =>
          rw [h.metadata_cleared endpoint hgiven hnode,
            hspec.metadata_cleared endpoint hgiven hnode]
        | none => rw [h.metadata_kept hgiven hnode, hspec.metadata_kept hgiven hnode]
    have hgroups : merged.groups = (base.withOptions options).groups := by
      have hspec := overlaid_withOptions base options
      by_cases hgiven : options.groups = []
      · rw [h.groups_kept hgiven, hspec.groups_kept hgiven]
      · rw [h.groups_given hgiven, hspec.groups_given hgiven]
    -- an option can only turn these two off
    have hcontract := Bool.eq_iff_iff.2 (h.emitCallsContract.trans Bool.and_eq_true_iff.symm)
    have hlibrary := Bool.eq_iff_iff.2 (h.emitCodecLibrary.trans Bool.and_eq_true_iff.symm)
    obtain ⟨endpoint, metadata, outDir, groups, policy, pragma, callsContract, codecLibrary,
      emitCodecLibrary, emitCallsContract, timeoutSecs, logLevel⟩ := merged
    rw [withOptions, Settings.mk.injEq]
    exact ⟨h.endpoint, hmetadata, h.outDir, hgroups, h.policy, h.pragma, h.callsContract,
      h.codecLibrary, hlibrary, hcontract, h.timeoutSecs, h.logLevel⟩
  · rintro rfl
    exact overlaid_withOptions base options

namespace Tool

variable {system : FileSystem} {options : Options} {base settings : Settings} {path text : String}

/-- The settings that the options are put on top of: the defaults, or what the file that is
named holds, usable or not. -/
inductive StartsWith (system : FileSystem) (options : Options) : Settings → Prop
  | default (h : options.config = none) : StartsWith system options .default
  | file {path text : String} {base : Settings} (h : options.config = some path)
      (hread : system.read path = .ok text) (hparse : Settings.parse? text = some base) :
      StartsWith system options base

/-- A step that is required leaves behind what it does, with a message for its fault. -/
theorem run_require {ε α : Type} (message : ε → String) (step : Program (Except ε α))
    (system : FileSystem) : (require message step).run.run system =
      ⟨(step.run system).value.mapError message, (step.run system).system⟩ := by
  change Program.run system (step.andThen _) = _
  rw [Program.run_andThen]
  cases (step.run system).value <;> rfl

theorem run_readSettings (hread : system.read path = .ok text) :
    (readSettings path).run system = ⟨Settings.ofText text, system⟩ := by
  change Program.run system (.readText path _) = _
  rw [Program.run, hread]
  rfl

theorem run_check (settings : Settings) (system : FileSystem) :
    (require SettingsFault.message (return settings.check)).run.run system =
      ⟨settings.check.mapError SettingsFault.message, system⟩ :=
  run_require SettingsFault.message _ system

theorem run_settingsFor_default (h : options.config = none) (system : FileSystem) :
    (settingsFor options).run.run system =
      ⟨(Settings.default.withOptions options).check.mapError SettingsFault.message, system⟩ := by
  unfold settingsFor
  rw [h]
  exact run_check _ system

theorem run_settingsFor_file (h : options.config = some path)
    (hread : system.read path = .ok text) : (settingsFor options).run.run system =
      match Settings.ofText text with
      | .ok base => ⟨(base.withOptions options).check.mapError SettingsFault.message, system⟩
      | .error fault => ⟨.error s!"Failed to load {path}: {fault.message}", system⟩ := by
  unfold settingsFor
  rw [h]
  change Program.run system (Program.andThen (require (fun (fault : SettingsFault) =>
    s!"Failed to load {path}: {fault.message}") (readSettings path)).run _) = _
  rw [Program.run_andThen, run_require, run_readSettings hread]
  cases Settings.ofText text with
  | ok base => exact run_check _ system
  | error fault => rfl

/-- Settings with a problem are only ever those of a file, and reading them fails. -/
theorem run_settingsFor_of_problem (hbase : StartsWith system options base)
    {problem : SettingsProblem} (hproblem : base.problem? = some problem) :
    ∃ path, options.config = some path ∧ (settingsFor options).run.run system =
      ⟨.error s!"Failed to load {path}: {(SettingsFault.invalid problem).message}", system⟩ := by
  cases hbase with
  | default =>
    rw [show Settings.default.problem? = none by decide] at hproblem
    cases hproblem
  | file h hread hparse =>
    refine ⟨_, h, ?_⟩
    rw [run_settingsFor_file h hread, Settings.ofText, hparse]
    dsimp only
    rw [Settings.check, hproblem]

/-- Otherwise the settings with the options on top are checked. -/
theorem run_settingsFor_of_usable (hbase : StartsWith system options base)
    (husable : base.problem? = none) : (settingsFor options).run.run system =
      ⟨(base.withOptions options).check.mapError SettingsFault.message, system⟩ := by
  cases hbase with
  | default h => exact run_settingsFor_default h system
  | file h hread hparse =>
    rw [run_settingsFor_file h hread, Settings.ofText, hparse]
    dsimp only
    rw [Settings.check, husable]

theorem system_run_settingsFor (hbase : StartsWith system options base) :
    ((settingsFor options).run.run system).system = system := by
  cases hproblem : base.problem? with
  | some problem =>
    obtain ⟨path, -, hrun⟩ := run_settingsFor_of_problem hbase hproblem
    rw [hrun]
  | none => rw [run_settingsFor_of_usable hbase hproblem]

theorem settingsFor_eq_ok_iff (hbase : StartsWith system options base) :
    ((settingsFor options).run.run system).value = .ok settings ↔
      base.problem? = none ∧ base.Overlaid options settings ∧ settings.problem? = none := by
  cases hproblem : base.problem? with
  | some problem =>
    obtain ⟨path, -, hrun⟩ := run_settingsFor_of_problem hbase hproblem
    rw [hrun]
    simp
  | none =>
    rw [run_settingsFor_of_usable hbase hproblem, Settings.check, Settings.overlaid_iff]
    cases hchecked : (base.withOptions options).problem? with
    | some problem =>
      refine ⟨fun h => (by cases h), ?_⟩
      rintro ⟨-, rfl, hnone⟩
      rw [hchecked] at hnone
      cases hnone
    | none =>
      constructor
      · intro h
        obtain rfl := Except.ok.inj h
        exact ⟨rfl, rfl, hchecked⟩
      · rintro ⟨-, rfl, -⟩
        rfl

theorem of_settingsFor_eq_error (hbase : StartsWith system options base) {message : String}
    (h : ((settingsFor options).run.run system).value = .error message) :
    (∃ path problem, options.config = some path ∧ base.problem? = some problem ∧
      message = s!"Failed to load {path}: {(SettingsFault.invalid problem).message}") ∨
    ∃ merged problem, base.problem? = none ∧ base.Overlaid options merged ∧
      merged.problem? = some problem ∧ message = (SettingsFault.invalid problem).message := by
  cases hproblem : base.problem? with
  | some problem =>
    obtain ⟨path, hpath, hrun⟩ := run_settingsFor_of_problem hbase hproblem
    rw [hrun] at h
    exact .inl ⟨path, problem, hpath, rfl, (Except.error.inj h).symm⟩
  | none =>
    rw [run_settingsFor_of_usable hbase hproblem, Settings.check] at h
    cases hchecked : (base.withOptions options).problem? with
    | none =>
      rw [hchecked] at h
      cases h
    | some problem =>
      rw [hchecked] at h
      exact .inr ⟨_, problem, rfl, base.overlaid_withOptions options, hchecked,
        (Except.error.inj h).symm⟩

/-- There are settings for a generation if and only if the file's own settings are usable and
those with the values of the options in their places are usable too, and these they are. Else
the message says what the first problem is, and where the file has it, which file it is. -/
theorem settingsFor_outcome (system : FileSystem) (options : Options) (base : Settings)
    (hbase : StartsWith system options base) :
    let outcome := (settingsFor options).run.run system
    outcome.system = system ∧ (∃! merged, base.Overlaid options merged) ∧
    (∀ settings, outcome.value = .ok settings ↔
      base.problem? = none ∧ base.Overlaid options settings ∧ settings.problem? = none) ∧
    ∀ message, outcome.value = .error message →
      (∃ path problem, options.config = some path ∧ base.problem? = some problem ∧
        message = s!"Failed to load {path}: {(SettingsFault.invalid problem).message}") ∨
      ∃ merged problem, base.problem? = none ∧ base.Overlaid options merged ∧
        merged.problem? = some problem ∧ message = (SettingsFault.invalid problem).message :=
  ⟨system_run_settingsFor hbase,
    ⟨_, base.overlaid_withOptions options, fun _ h => Settings.overlaid_iff.1 h⟩,
    fun _ => settingsFor_eq_ok_iff hbase, fun _ h => of_settingsFor_eq_error hbase h⟩

/-- A group is asked for, with a node or a metadata file, and on top of a file. -/
def demoOptions (endpoint metadata : Option String) : Options :=
  { Options.empty with config := some "c.toml", endpoint, metadata, groups := ["Demo"] }

def systemWith (text : String) : FileSystem := .ofFiles [("c.toml", text)]

/-- The metadata file of the settings gives way to the node of the options. -/
theorem settingsFor_outcome_node : ∃ settings,
    ((settingsFor (demoOptions (some "ws://node") none)).run.run
      (systemWith "metadata = \"m.json\"\ntimeout_secs = 5\n")).value = .ok settings ∧
    settings.metadata = none ∧ settings.endpoint = "ws://node" ∧ settings.groups = ["Demo"] ∧
    settings.timeoutSecs = 5 := by
  have hparse : Settings.parse? "metadata = \"m.json\"\ntimeout_secs = 5\n" =
      some { Settings.default with metadata := some "m.json", timeoutSecs := 5 } := by
    decide +kernel
  obtain ⟨-, -, hok, -⟩ := settingsFor_outcome
    (systemWith "metadata = \"m.json\"\ntimeout_secs = 5\n") (demoOptions (some "ws://node") none)
    _ (.file rfl rfl hparse)
  exact ⟨_, (hok _).2 ⟨by decide, Settings.overlaid_withOptions _ _, by decide⟩,
    rfl, rfl, rfl, rfl⟩

/-- With a metadata file the node of the settings does not matter any more, and the settings
with the options on top are usable. The file is refused all the same. -/
theorem settingsFor_refuses_file : ∃ base merged,
    StartsWith (systemWith "endpoint = \"ftp://node\"\n") (demoOptions none (some "m.json")) base ∧
    base.Overlaid (demoOptions none (some "m.json")) merged ∧ merged.problem? = none ∧
    ((settingsFor (demoOptions none (some "m.json"))).run.run
      (systemWith "endpoint = \"ftp://node\"\n")).value =
        .error ("Failed to load c.toml: Invalid configuration: " ++
          "Endpoint 'ftp://node' must start with ws://, wss://, http:// or https://") := by
  have hparse : Settings.parse? "endpoint = \"ftp://node\"\n" =
      some { Settings.default with endpoint := "ftp://node" } := by
    decide +kernel
  have hbase : StartsWith (systemWith "endpoint = \"ftp://node\"\n")
      (demoOptions none (some "m.json")) { Settings.default with endpoint := "ftp://node" } :=
    .file rfl rfl hparse
  refine ⟨_, _, hbase, Settings.overlaid_withOptions _ _, by decide, ?_⟩
  obtain ⟨path, hpath, hrun⟩ := run_settingsFor_of_problem hbase
    (show Settings.problem? _ = some (.badEndpoint "ftp://node") by decide)
  obtain rfl := Option.some.inj hpath
  rw [hrun]
  exact congrArg Except.error (by decide)

end Tool

end ScaleCalls
