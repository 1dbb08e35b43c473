import ScaleCalls.Generation.Run
import ScaleCalls.Proofs.Calls.Groups
import ScaleCalls.Proofs.Calls.Policy

/-!
# What a generation ends with

A generation goes through its groups one after the other, and what it ends with depends
on which of the wanted names match a group, on which calls of these groups can be
encoded, and on the policy. Each way to fail has its own case. In the remaining one no
call is lost: each has an encoder, or is reported as skipped.

## Main definitions

- `Completed` — what a generation without a fault holds
- `Collection.matchedCalls` — the calls of all groups, group by group

## Main statements

- `Collection.mapM_unit_fail` — the units of several groups, or the first call that is refused
- `Generator.run_outcome` — the cases of a generation
-/

namespace ScaleCalls

open Solidity

/-! ## The units of several groups -/

namespace Collection

variable {collection : Collection} {snapshot : Snapshot} {names : List String}

theorem firstRefused?_append (collection : Collection) (calls more : List ResolvedCall) :
    collection.firstRefused? (calls ++ more) =
      (collection.firstRefused? calls).or (collection.firstRefused? more) :=
  List.findSome?_append

/-- Going through the groups one after the other is going through all their calls. -/
theorem mapM_unit_fail (collection : Collection) (codecLibrary : String) (groups : List String) :
    groups.mapM (collection.unit .fail codecLibrary) =
      match collection.firstRefused? (groups.flatMap collection.callsOf) with
      | some refused => .error refused
      | none => .ok (groups.map (collection.skippingUnit codecLibrary)) := by
  induction groups with
  | nil => rfl
  | cons group groups ih =>
    rw [List.mapM_cons, unit_fail, ih, List.flatMap_cons, firstRefused?_append]
    cases collection.firstRefused? (collection.callsOf group) with
    | some refused => rfl
    | none =>
      cases collection.firstRefused? (groups.flatMap collection.callsOf) <;> rfl

theorem mapM_unit_skip (collection : Collection) (codecLibrary : String) (groups : List String) :
    groups.mapM (collection.unit .skip codecLibrary) =
      .ok (groups.map (collection.skippingUnit codecLibrary)) := by
  induction groups with
  | nil => rfl
  | cons group groups ih =>
    rw [List.mapM_cons, unit_skip, ih]
    rfl

theorem groups_eq_nil_iff : (ofSnapshot snapshot names).groups = [] ↔
    ∀ name ∈ names, snapshot.pallet? name = none := by
  have hmem := (matches_matchedGroups snapshot names).mem_iff
  rw [ofSnapshot, List.map_eq_nil_iff]
  constructor
  · intro hnil name hname
    cases hfound : snapshot.pallet? name with
    | none => rfl
    | some pallet =>
      have hmatched := (hmem pallet).2 ⟨name, hname, hfound⟩
      rw [hnil] at hmatched
      cases hmatched
  · intro hnone
    refine List.eq_nil_iff_forall_not_mem.2 fun pallet hpallet => ?_
    obtain ⟨name, hname, hfound⟩ := (hmem pallet).1 hpallet
    rw [hnone name hname] at hfound
    cases hfound

/-- The calls of all groups that some names match, group by group. -/
def matchedCalls (snapshot : Snapshot) (names : List String) : List ResolvedCall :=
  (matchedGroups snapshot names).flatMap (orderedCalls (TypeTable.ofSnapshot snapshot))

theorem callsOf_groups (snapshot : Snapshot) (names : List String) :
    (ofSnapshot snapshot names).groups.flatMap (ofSnapshot snapshot names).callsOf =
      matchedCalls snapshot names := by
  have hgroups : (ofSnapshot snapshot names).groups =
      (matchedGroups snapshot names).map Pallet.name := rfl
  rw [hgroups, matchedCalls, List.flatMap_map]
  exact List.flatMap_congr fun pallet hpallet => callsOf_ofSnapshot hpallet

theorem qualified_orderedCalls (table : TypeTable) (pallet : Pallet) :
    ((orderedCalls table pallet).map ResolvedCall.qualified).Perm
      (pallet.calls.map fun call => s!"{pallet.name}.{call.name}") := by
  rw [orderedCalls, List.map_map]
  exact (List.mergeSort_perm _ _).map _

end Collection

/-! ## Generations -/

/-- A finished generation for some groups: their units in order, the files of the units
with the two files that the settings may ask for, and a report that mentions every call
of the groups once. -/
structure Completed (generator : Generator) (sourceName : String) (snapshot : Snapshot)
    (wanted : List String) (pallets : List Pallet) (generation : Generation) : Prop where
  units : List.Forall₂
    (fun unit pallet => unit.group = pallet.name ∧ unit.library = libraryName pallet.name ∧
      (Collection.ofSnapshot snapshot wanted).unit generator.settings.policy
        generator.settings.codecLibrary pallet.name = .ok unit ∧
      Apportioned (Collection.ofSnapshot snapshot wanted).catalog
        (Collection.orderedCalls (TypeTable.ofSnapshot snapshot) pallet) unit.functions
        unit.skipped)
    generation.units pallets
  files : let header := generator.header sourceName snapshot
    let settings := generator.settings
    generation.files =
      generation.units.map
          (fun unit => ⟨unit.library ++ ".sol", unit.text header settings.codecLibrary⟩) ++
        (if settings.emitCallsContract then
          [⟨settings.callsContract ++ ".sol", CallsContract.text settings.callsContract
            (Collection.ofSnapshot snapshot wanted).callEntries header⟩]
        else []) ++
        (if settings.emitCodecLibrary then
          [⟨settings.codecLibrary ++ ".sol", CodecLibrary.text settings.codecLibrary header⟩]
        else [])
  reportedFiles : generation.report.files = generation.files.map GeneratedFile.path
  source : generation.report.source = sourceName
  groups : generation.report.groups = pallets.map Pallet.name
  emitted : generation.report.emitted =
    generation.units.flatMap fun unit => unit.functions.map CallFunction.qualified
  skipped : generation.report.skipped = generation.units.flatMap SourceUnit.skipped
  calls : (generation.report.emitted ++ generation.report.skipped.map SkipNote.qualified).Perm
    (pallets.flatMap fun pallet => pallet.calls.map fun call => s!"{pallet.name}.{call.name}")
  unknownGroups : generation.report.unknownGroups =
    wanted.filter fun name => (snapshot.pallet? name).isNone

namespace Generator

variable {generator : Generator} {sourceName : String} {snapshot : Snapshot} {wanted : List String}

/-- The units of the matched groups of a snapshot, with their calls in order. -/
theorem apportioned_units {units : List SourceUnit}
    (hunits : generator.units (Collection.ofSnapshot snapshot wanted) = .ok units) :
    List.Forall₂
      (fun unit pallet => unit.group = pallet.name ∧ unit.library = libraryName pallet.name ∧
        (Collection.ofSnapshot snapshot wanted).unit generator.settings.policy
          generator.settings.codecLibrary pallet.name = .ok unit ∧
        Apportioned (Collection.ofSnapshot snapshot wanted).catalog
          (Collection.orderedCalls (TypeTable.ofSnapshot snapshot) pallet) unit.functions
          unit.skipped)
      units (Collection.matchedGroups snapshot wanted) := by
  have hall : List.Forall₂ (fun group unit => (Collection.ofSnapshot snapshot wanted).unit
        generator.settings.policy generator.settings.codecLibrary group = .ok unit)
      ((Collection.matchedGroups snapshot wanted).map Pallet.name) units :=
    mapM_eq_ok.1 hunits
  rw [List.forall₂_map_left_iff] at hall
  refine forall₂_of_mem hall.flip fun unit pallet _ hpallet hunit => ?_
  obtain rfl := Collection.eq_skippingUnit hunit
  refine ⟨rfl, rfl, hunit, ?_⟩
  rw [← Collection.callsOf_ofSnapshot hpallet]
  exact Collection.apportioned_unitOf (Collection.consistent_ofSnapshot snapshot wanted) _ _

/-- What groups have in functions and notes together are all their calls. -/
theorem perm_of_apportioned {catalog : Catalog} {table : TypeTable} {units : List SourceUnit}
    {pallets : List Pallet}
    (h : List.Forall₂ (fun unit pallet => Apportioned catalog
      (Collection.orderedCalls table pallet) unit.functions unit.skipped) units pallets) :
    (units.flatMap (fun unit => unit.functions.map CallFunction.qualified) ++
        (units.flatMap SourceUnit.skipped).map SkipNote.qualified).Perm
      (pallets.flatMap fun pallet =>
        pallet.calls.map fun call => s!"{pallet.name}.{call.name}") := by
  rw [List.map_flatMap]
  refine (List.flatMap_append_perm units _ _).trans ?_
  induction h with
  | nil => exact .nil
  | @cons unit pallet units pallets hunit _ ih =>
    rw [List.flatMap_cons, List.flatMap_cons]
    exact (hunit.perm_qualified.trans (Collection.qualified_orderedCalls table pallet)).append ih

theorem completed_assemble {units : List SourceUnit} (sourceName : String)
    (hunits : generator.units (Collection.ofSnapshot snapshot wanted) = .ok units) :
    Completed generator sourceName snapshot wanted (Collection.matchedGroups snapshot wanted)
      (generator.assemble sourceName snapshot (Collection.ofSnapshot snapshot wanted) units) where
  units := apportioned_units hunits
  files := rfl
  reportedFiles := rfl
  source := rfl
  groups := rfl
  emitted := rfl
  skipped := rfl
  calls := perm_of_apportioned ((apportioned_units hunits).imp fun _ _ h => h.2.2.2)
  unknownGroups := rfl

/-- No group has a function exactly if none of the calls can be encoded. -/
theorem all_isEmpty_of_apportioned {catalog : Catalog} {table : TypeTable}
    {units : List SourceUnit} {pallets : List Pallet}
    (h : List.Forall₂ (fun unit pallet => Apportioned catalog
      (Collection.orderedCalls table pallet) unit.functions unit.skipped) units pallets) :
    (units.all fun unit => unit.functions.isEmpty) ↔
      ∀ call ∈ pallets.flatMap (Collection.orderedCalls table), ¬ Encodable catalog call := by
  induction h with
  | nil => simp
  | cons hunit _ ih =>
    rw [List.all_cons, Bool.and_eq_true, ih, List.isEmpty_iff, hunit.functions_eq_nil_iff,
      List.flatMap_cons, List.forall_mem_append]

/-- The groups of the settings stand in where none are asked for. -/
theorem wanted_eq (generator : Generator) (names : List String) :
    generator.wanted names = if names = [] then generator.settings.groups else names := by
  simp only [wanted, List.isEmpty_iff]

theorem run_ok (generator : Generator) (sourceName : String) (snapshot : Snapshot)
    (names : List String) : generator.run ⟨sourceName, .ok snapshot⟩ names =
      generator.runOn sourceName snapshot (generator.wanted names) :=
  rfl

theorem runOn_of_none (hnone : ∀ name ∈ wanted, snapshot.pallet? name = none) :
    generator.runOn sourceName snapshot wanted =
      if wanted = [] then .error .noCalls else .error (.unknownGroups wanted) := by
  have hunknown : (Collection.ofSnapshot snapshot wanted).unknownGroups = wanted := by
    refine List.filter_eq_self.2 fun name hname => ?_
    rw [hnone name hname, Option.isNone_none]
  unfold runOn
  simp only [Collection.groups_eq_nil_iff.2 hnone, hunknown, List.isEmpty_nil, if_true,
    List.isEmpty_iff]

/-- Where calls may not be skipped, the first call without an encoder is what a generation
ends with. -/
theorem runOn_of_blocked
    (hsome : (Collection.ofSnapshot snapshot wanted).groups ≠ [])
    (hpolicy : generator.settings.policy = .fail)
    (hblocked : ∃ call ∈ Collection.matchedCalls snapshot wanted,
      ¬ Encodable (Collection.ofSnapshot snapshot wanted).catalog call) :
    ∃ front call back arg args,
      Collection.matchedCalls snapshot wanted = front ++ call :: back ∧
      (∀ c ∈ front, Encodable (Collection.ofSnapshot snapshot wanted).catalog c) ∧
      Noted (Collection.ofSnapshot snapshot wanted).catalog call.args (arg :: args) ∧
      generator.runOn sourceName snapshot wanted =
        .error (.refusedCall ⟨call.qualified, arg⟩) := by
  have hc := Collection.consistent_ofSnapshot snapshot wanted
  rw [← Collection.callsOf_groups] at hblocked ⊢
  obtain ⟨call, hcall, hblocked⟩ := hblocked
  cases hrefused : (Collection.ofSnapshot snapshot wanted).firstRefused?
      ((Collection.ofSnapshot snapshot wanted).groups.flatMap
        (Collection.ofSnapshot snapshot wanted).callsOf) with
  | none => exact absurd ((Collection.firstRefused?_eq_none hc).1 hrefused call hcall) hblocked
  | some refused =>
    obtain ⟨front, first, back, arg, args, heq, hfront, hnoted, rfl⟩ :=
      Collection.exists_of_firstRefused? hc hrefused
    refine ⟨front, first, back, arg, args, heq, hfront, hnoted, ?_⟩
    unfold runOn units
    simp only [List.isEmpty_iff, hsome, if_false, hpolicy, Collection.mapM_unit_fail, hrefused]

/-- Otherwise the units of all groups are made, and they are without a function if no call
can be encoded. -/
theorem exists_units (hnot : ¬ (generator.settings.policy = .fail ∧
      ∃ call ∈ Collection.matchedCalls snapshot wanted,
        ¬ Encodable (Collection.ofSnapshot snapshot wanted).catalog call)) :
    ∃ units, generator.units (Collection.ofSnapshot snapshot wanted) = .ok units ∧
      ((units.all fun unit => unit.functions.isEmpty) ↔
        ∀ call ∈ Collection.matchedCalls snapshot wanted,
          ¬ Encodable (Collection.ofSnapshot snapshot wanted).catalog call) := by
  have hmade : ∃ units, generator.units (Collection.ofSnapshot snapshot wanted) = .ok units := by
    unfold units
    cases hpolicy : generator.settings.policy with
    | skip => exact ⟨_, Collection.mapM_unit_skip _ _ _⟩
    | fail =>
      have hnone := (Collection.firstRefused?_eq_none
        (Collection.consistent_ofSnapshot snapshot wanted)).2 fun call hcall => by
          by_contra hblocked
          exact hnot ⟨hpolicy, call, hcall, hblocked⟩
      rw [Collection.mapM_unit_fail, Collection.callsOf_groups, hnone]
      exact ⟨_, rfl⟩
  obtain ⟨units, hunits⟩ := hmade
  refine ⟨units, hunits, ?_⟩
  exact all_isEmpty_of_apportioned ((apportioned_units hunits).imp fun _ _ h => h.2.2.2)

theorem runOn_of_units {units : List SourceUnit}
    (hsome : (Collection.ofSnapshot snapshot wanted).groups ≠ [])
    (hunits : generator.units (Collection.ofSnapshot snapshot wanted) = .ok units) :
    generator.runOn sourceName snapshot wanted =
      if units.all fun unit => unit.functions.isEmpty then .error .noCalls
      else .ok (generator.assemble sourceName snapshot (Collection.ofSnapshot snapshot wanted)
        units) := by
  unfold runOn
  simp only [List.isEmpty_iff, hsome, if_false]
  rw [hunits]

/-- The cases of a generation. The names that are asked for are wanted, or the groups of the
settings if there are none. Nothing is wanted; or no wanted name matches a group; or some do,
and then the first call without an encoder makes it fail if the policy says so. If it does not
fail there, all depends on whether any call can be encoded. -/
theorem run_outcome (generator : Generator) (sourceName : String) (snapshot : Snapshot)
    (names : List String) :
    let wanted := if names = [] then generator.settings.groups else names
    let result := generator.run ⟨sourceName, .ok snapshot⟩ names
    let catalog := (Collection.ofSnapshot snapshot wanted).catalog
    (wanted = [] → result = .error .noCalls) ∧
    (wanted ≠ [] → (∀ name ∈ wanted, snapshot.pallet? name = none) →
      result = .error (.unknownGroups wanted)) ∧
    ((∃ name ∈ wanted, (snapshot.pallet? name).isSome) → ∃ pallets,
      Matches snapshot wanted pallets ∧
      let calls := pallets.flatMap
        (Collection.orderedCalls (TypeTable.ofSnapshot snapshot))
      let refuses := generator.settings.policy = .fail ∧ ∃ call ∈ calls, ¬ Encodable catalog call
      (refuses → ∃ front call back arg args, calls = front ++ call :: back ∧
        (∀ c ∈ front, Encodable catalog c) ∧ Noted catalog call.args (arg :: args) ∧
        result = .error (.refusedCall ⟨call.qualified, arg⟩)) ∧
      (¬ refuses → (∀ call ∈ calls, ¬ Encodable catalog call) → result = .error .noCalls) ∧
      (¬ refuses → (∃ call ∈ calls, Encodable catalog call) → ∃ generation,
        result = .ok generation ∧
          Completed generator sourceName snapshot wanted pallets generation)) := by
  intro wanted result catalog
  have hresult : result = generator.runOn sourceName snapshot wanted :=
    (run_ok _ _ _ _).trans (congrArg _ (wanted_eq generator names))
  refine ⟨fun hnil => ?_, fun hsome hnone => ?_, ?_⟩
  · have hnone : ∀ name ∈ wanted, snapshot.pallet? name = none := by simp [hnil]
    rw [hresult, runOn_of_none hnone, if_pos hnil]
  · rw [hresult, runOn_of_none hnone, if_neg hsome]
  · rintro ⟨name, hname, hfound⟩
    have hgroups : (Collection.ofSnapshot snapshot wanted).groups ≠ [] := by
      intro hnil
      rw [Collection.groups_eq_nil_iff.1 hnil name hname] at hfound
      cases hfound
    refine ⟨_, Collection.matches_matchedGroups snapshot wanted, ?_⟩
    -- the calls of all groups in order decide whether, and at which call, it fails
    intro calls refuses
    rw [hresult]
    refine ⟨fun h => runOn_of_blocked hgroups h.1 h.2, fun hnot hnone => ?_,
      fun hnot hsome => ?_⟩
    · obtain ⟨units, hunits, hempty⟩ := exists_units hnot
      rw [runOn_of_units hgroups hunits, if_pos]
      exact hempty.2 hnone
    · obtain ⟨units, hunits, hempty⟩ := exists_units hnot
      obtain ⟨call, hcall, hencodable⟩ := hsome
      refine ⟨_, ?_, completed_assemble sourceName hunits⟩
      rw [runOn_of_units hgroups hunits, if_neg]
      intro hall
      exact hempty.1 hall call hcall hencodable

/-- The settings that hold when nothing else is said, without any group. -/
def sample : Generator := ⟨Settings.default, by decide +kernel⟩

/-- Settings with groups: one that the sample does not have, and one that it has twice. -/
def configured : Generator :=
  ⟨{ Settings.default with groups := ["nope", "DEMO", "demo"] }, by decide +kernel⟩

/-- The groups of the settings count exactly if no names are given. -/
theorem run_outcome_sample :
    sample.run ⟨"file", .ok Collection.sampleSnapshot⟩ [] = .error .noCalls ∧
    configured.run ⟨"file", .ok Collection.sampleSnapshot⟩ ["none", "nope"] =
      .error (.unknownGroups ["none", "nope"]) ∧
    ∃ generation,
      configured.run ⟨"file", .ok Collection.sampleSnapshot⟩ [] = .ok generation ∧
      generation.report.groups = ["Demo"] ∧ generation.report.unknownGroups = ["nope"] ∧
      (generation.report.emitted ++ generation.report.skipped.map SkipNote.qualified).Perm
        ["Demo.set"] := by
  refine ⟨(run_outcome sample "file" Collection.sampleSnapshot []).1 rfl, ?_, ?_⟩
  · exact (run_outcome configured "file" Collection.sampleSnapshot ["none", "nope"]).2.1
      (by decide) (by decide +kernel)
  · obtain ⟨pallets, hmatches, -, -, hok⟩ :=
      (run_outcome configured "file" Collection.sampleSnapshot []).2.2 (by decide +kernel)
    obtain rfl : pallets = Collection.sampleSnapshot.pallets := by
      refine hmatches.eq_singleton
        ((hmatches.mem_iff _).2 ⟨"demo", by decide, by decide +kernel⟩) fun pallet hpallet => ?_
      obtain ⟨name, -, hfound⟩ := (hmatches.mem_iff pallet).1 hpallet
      exact List.mem_singleton.1 (List.mem_of_find?_eq_some hfound)
    have hsupported : ∀ call ∈ Collection.sampleSnapshot.pallets.flatMap
        (Collection.orderedCalls (TypeTable.ofSnapshot Collection.sampleSnapshot)),
        (Collection.ofSnapshot Collection.sampleSnapshot ["nope", "DEMO", "demo"]).isSupported
          call := by
      decide +kernel
    obtain ⟨generation, hgeneration, hcompleted⟩ := hok (fun h => by cases h.1)
      ⟨⟨"set", "Demo", ⟨7, 2⟩,
        [⟨"value", "u256", "u256"⟩, ⟨"list", "Vec<u16>", "Vec<u16>"⟩]⟩, by decide +kernel,
        (Collection.isSupported_iff (Collection.consistent_ofSnapshot _ _)).1
          (hsupported _ (by decide +kernel))⟩
    exact ⟨generation, hgeneration, hcompleted.groups,
      hcompleted.unknownGroups.trans (by decide +kernel), hcompleted.calls⟩

end Generator

end ScaleCalls
