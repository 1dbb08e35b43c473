import ScaleCalls.Proofs.Generation.Files
import ScaleCalls.Proofs.Solidity.FunctionNames

/-!
# The two names of a call

A call that is encoded has a function in the unit of its group and an entry in the calls
contract. Both names are made of the names of group and call in camel case, each in a scope
of its own: the calls contract lists all calls that were collected, a unit only those of its
group that are encoded. So the two names have different numbers at the end where an earlier
call of the same base is in the one list and not in the other.

## Main definitions

- `Collection.isEmittedIn` — the calls that a unit has functions for
- `Collection.NamedTwice` — a call with its function and its entry

## Main statements

- `Collection.namedTwice_of_split` — the number at the end of each of the two names
- `Generator.callNames_eq_iff` — when the names of a call are the same
-/

namespace ScaleCalls

open Solidity

namespace Collection

variable {collection : Collection} {call : ResolvedCall} {front back : List ResolvedCall}
  {f : CallFunction} {entry : CallEntry}

/-- The calls that the unit of a group has functions for. -/
def isEmittedIn (collection : Collection) (group : String) (call : ResolvedCall) : Bool :=
  call.group == group && collection.isSupported call

theorem supportedCalls_eq_filter (collection : Collection) (group : String) :
    collection.supportedCalls group = collection.calls.filter (collection.isEmittedIn group) := by
  rw [supportedCalls, callsOf, List.filter_filter]
  exact List.filter_congr fun call _ => Bool.and_comm _ _

theorem isEmittedIn_iff (hc : collection.catalog.Consistent) {group : String} :
    collection.isEmittedIn group call ↔ call.group = group ∧ Encodable collection.catalog call := by
  rw [isEmittedIn, Bool.and_eq_true, beq_iff_eq, isSupported_iff hc]

/-- A call that comes behind others, with its function and its entry. Each of the two names
counts the earlier calls of the same base in the list that it is from. -/
structure NamedTwice (collection : Collection) (front : List ResolvedCall) (call : ResolvedCall)
    (f : CallFunction) (entry : CallEntry) : Prop where
  encoder : EncoderOf f call
  index : entry.index = call.index
  qualified : entry.qualified = call.qualified
  name : f.name = Scope.numbered call.functionBase
    ((front.filter (collection.isEmittedIn call.group)).countP
      fun earlier => earlier.functionBase == call.functionBase)
  member : entry.member = Scope.numbered call.functionBase
    (front.countP fun earlier => earlier.functionBase == call.functionBase)

theorem unsuffixed_functionBases (calls : List ResolvedCall) :
    Scope.Unsuffixed (calls.map ResolvedCall.functionBase) := by
  intro a ha b hb n
  obtain ⟨call, -, rfl⟩ := List.mem_map.1 ha
  obtain ⟨call', -, rfl⟩ := List.mem_map.1 hb
  exact candidate_functionName_ne _ _ _ _ n

/-- The name that a call gets in the scope of a list of calls. -/
theorem getElem?_claimed (front back : List ResolvedCall) (call : ResolvedCall) :
    (Scope.empty.claimAll ((front ++ call :: back).map ResolvedCall.functionBase))[front.length]? =
      some (Scope.numbered call.functionBase
        (front.countP fun earlier => earlier.functionBase == call.functionBase)) := by
  have h := Scope.getElem?_claimAll (unsuffixed_functionBases (front ++ call :: back))
    (List.map_append.trans (congrArg _ List.map_cons))
  rwa [List.length_map, List.count, List.countP_map] at h

theorem members_callEntries (collection : Collection) :
    collection.callEntries.map CallEntry.member =
      Scope.empty.claimAll (collection.calls.map ResolvedCall.functionBase) := by
  have hlength : (Scope.empty.claimAll (collection.calls.map ResolvedCall.functionBase)).length =
      collection.calls.length := by
    rw [Scope.length_claimAll, List.length_map]
  have h := map_zipWith_of_left (g := CallEntry.member) (k := id) (fun _ _ => rfl)
    (f := fun member (call : ResolvedCall) => ⟨member, call.index, call.qualified⟩) hlength
  rwa [List.map_id] at h

theorem getElem?_callEntries (hcalls : collection.calls = front ++ call :: back) :
    collection.callEntries[front.length]? = some ⟨Scope.numbered call.functionBase
      (front.countP fun earlier => earlier.functionBase == call.functionBase),
      call.index, call.qualified⟩ := by
  rw [callEntries, List.getElem?_zipWith, hcalls, getElem?_claimed, getElem?_length_append_cons]

/-- The functions of a unit in the order of the calls that they encode. -/
theorem getElem?_functions (codecLibrary : String)
    (hcalls : collection.calls = front ++ call :: back)
    (hemitted : collection.isEmittedIn call.group call) :
    ∃ f, (collection.skippingUnit codecLibrary call.group).functions[
        (front.filter (collection.isEmittedIn call.group)).length]? = some f ∧
      EncoderOf f call ∧ f.name = Scope.numbered call.functionBase
        ((front.filter (collection.isEmittedIn call.group)).countP
          fun earlier => earlier.functionBase == call.functionBase) := by
  have hsupported : collection.supportedCalls call.group =
      front.filter (collection.isEmittedIn call.group) ++
        call :: back.filter (collection.isEmittedIn call.group) := by
    rw [supportedCalls_eq_filter, hcalls, List.filter_append, List.filter_cons, if_pos hemitted]
  have hname := getElem?_claimed (front.filter (collection.isEmittedIn call.group))
    (back.filter (collection.isEmittedIn call.group)) call
  have hcall := getElem?_length_append_cons (front.filter (collection.isEmittedIn call.group))
    (back.filter (collection.isEmittedIn call.group)) call
  rw [← hsupported] at hname hcall
  exact ⟨_, List.getElem?_zipWith_eq_some.2 ⟨_, call, hname, hcall, rfl⟩,
    encoderOf_function _ _ call, rfl⟩

theorem namedTwice_of_split (codecLibrary : String)
    (hcalls : collection.calls = front ++ call :: back)
    (hemitted : collection.isEmittedIn call.group call) :
    ∃ f entry, (collection.skippingUnit codecLibrary call.group).functions[
        (front.filter (collection.isEmittedIn call.group)).length]? = some f ∧
      collection.callEntries[front.length]? = some entry ∧
      collection.NamedTwice front call f entry := by
  obtain ⟨f, hf, hencoder, hname⟩ := getElem?_functions codecLibrary hcalls hemitted
  exact ⟨f, _, hf, getElem?_callEntries hcalls, hencoder, rfl, rfl, hname, rfl⟩

/-- A function of a unit is that of a call, at its place among the calls. -/
theorem exists_split_of_function {codecLibrary group : String} {i : Nat}
    (hf : (collection.skippingUnit codecLibrary group).functions[i]? = some f) :
    ∃ front call back, collection.calls = front ++ call :: back ∧
      collection.isEmittedIn group call ∧
      (front.filter (collection.isEmittedIn group)).length = i := by
  have hfunctions : (collection.skippingUnit codecLibrary group).functions.length =
      (collection.supportedCalls group).length := by
    simp [skippingUnit, unitOf]
  obtain ⟨hi, -⟩ := List.getElem?_eq_some_iff.1 hf
  rw [hfunctions, supportedCalls_eq_filter] at hi
  have hsplit := (List.take_append_drop i (collection.calls.filter
    (collection.isEmittedIn group))).symm
  rw [List.drop_eq_getElem_cons hi] at hsplit
  obtain ⟨before, behind, hcalls, hbefore, hbehind⟩ := List.filter_eq_append_iff.1 hsplit
  obtain ⟨skipped, back, rfl, hskipped, hcall, -⟩ := List.filter_eq_cons_iff.1 hbehind
  refine ⟨before ++ skipped, _, back, hcalls.trans (List.append_assoc _ _ _).symm, hcall, ?_⟩
  rw [List.filter_append, List.filter_eq_nil_iff.2 hskipped, List.append_nil, hbefore,
    List.length_take]
  exact Nat.min_eq_left (Nat.le_of_lt hi)

/-- The two names of a call are the same if all earlier calls of its base are encoded in
its unit too. -/
theorem NamedTwice.name_eq_iff (h : collection.NamedTwice front call f entry) :
    f.name = entry.member ↔ ∀ earlier ∈ front, earlier.functionBase = call.functionBase →
      collection.isEmittedIn call.group earlier := by
  have hbase : call.functionBase ∈ [call].map ResolvedCall.functionBase := List.mem_cons_self
  rw [h.name, h.member, Scope.numbered_inj (unsuffixed_functionBases [call]) hbase hbase,
    List.countP_eq_length_filter, List.countP_eq_length_filter, List.filter_comm,
    List.length_filter_eq_length_iff]
  simp only [true_and, List.mem_filter, beq_iff_eq, and_imp]

end Collection

namespace Generator

/-- A function that encodes a call and the entry of this call in the calls contract have the
same name exactly if all earlier calls of the same base, in the order of the calls contract,
are of the same group and can be encoded. -/
theorem callNames_eq_iff (generator : Generator) (source : Source) (names : List String)
    (generation : Generation) (h : generator.run source names = .ok generation)
    (hcontract : generator.settings.emitCallsContract) :
    ∃ snapshot, source.content = .ok snapshot ∧
      let collection := Collection.ofSnapshot snapshot (generator.wanted names)
      let contract := generator.settings.callsContract
      ⟨fileName contract, CallsContract.text contract collection.callEntries
        (generator.header source.name snapshot)⟩ ∈ generation.files ∧
      (collection.callEntries.map CallEntry.member).Nodup ∧
      ∀ unit ∈ generation.units, ∀ i f, unit.functions[i]? = some f →
        ∃ front call back entry, collection.calls = front ++ call :: back ∧
          call.group = unit.group ∧ Encodable collection.catalog call ∧
          (front.filter (collection.isEmittedIn unit.group)).length = i ∧
          collection.callEntries[front.length]? = some entry ∧
          collection.NamedTwice front call f entry ∧
          (f.name = entry.member ↔ ∀ earlier ∈ front, earlier.functionBase = call.functionBase →
            earlier.group = call.group ∧ Encodable collection.catalog earlier) := by
  obtain ⟨snapshot, units, hsource, hunits, rfl⟩ := exists_of_run h
  refine ⟨snapshot, hsource, ?_⟩
  intro collection contract
  have hc : collection.catalog.Consistent := Collection.consistent_ofSnapshot snapshot _
  refine ⟨?_, ?_, fun unit hunit i f hf => ?_⟩
  · refine List.mem_append_left _ (List.mem_append_right _ ?_)
    rw [callsFiles, if_pos hcontract]
    exact List.mem_singleton_self _
  · rw [Collection.members_callEntries]
    exact Scope.nodup_claimAll _ _
  · obtain ⟨group, -, hgroup⟩ := exists_of_mem_forall₂ (mapM_eq_ok.1 hunits).flip hunit
    obtain rfl := Collection.eq_skippingUnit hgroup
    obtain ⟨front, call, back, hcalls, hemitted, hplace⟩ := Collection.exists_split_of_function hf
    obtain ⟨rfl, hencodable⟩ := (Collection.isEmittedIn_iff hc).1 hemitted
    obtain ⟨f', entry, hf', hentry, hnamed⟩ :=
      Collection.namedTwice_of_split generator.settings.codecLibrary hcalls hemitted
    rw [hplace, hf] at hf'
    obtain rfl := Option.some.inj hf'
    refine ⟨front, call, back, entry, hcalls, rfl, hencodable, hplace, hentry, hnamed, ?_⟩
    exact hnamed.name_eq_iff.trans (forall₃_congr fun _ _ _ => Collection.isEmittedIn_iff hc)

/-- A group with two calls that have one name in camel case; the second takes nothing. -/
def rivals (args : List Argument) : Snapshot where
  chain := ""
  specName := ""
  specVersion := 0
  pallets := [⟨"Demo", 7, [⟨"set_x", 0, args⟩, ⟨"setX", 1, []⟩]⟩]
  types := []

section Rivals

variable (args : List Argument)

theorem ofSnapshot_rivals :
    Collection.ofSnapshot (rivals args) ["Demo"] =
      ⟨[⟨"set_x", "Demo", ⟨7, 0⟩,
          args.map (Collection.resolveArgument (TypeTable.ofSnapshot (rivals args)))⟩,
          ⟨"setX", "Demo", ⟨7, 1⟩, []⟩],
        (TypeTable.ofSnapshot (rivals args)).catalogOf (args.map Argument.reference),
        ["Demo"], []⟩ := by
  have hfound : (rivals args).pallet? "Demo" =
      some ⟨"Demo", 7, [⟨"set_x", 0, args⟩, ⟨"setX", 1, []⟩]⟩ :=
    List.find?_cons_of_pos (beq_self_eq_true _)
  refine (Collection.ofSnapshot_singleton hfound (by simp [Call.le])).trans ?_
  simp only [Collection.references, Collection.resolveCall, List.flatMap_cons, List.flatMap_nil,
    List.map_cons, List.map_nil, List.append_nil]

theorem calls_rivals :
    (Collection.ofSnapshot (rivals args) ["Demo"]).calls =
      [⟨"set_x", "Demo", ⟨7, 0⟩,
          args.map (Collection.resolveArgument (TypeTable.ofSnapshot (rivals args)))⟩] ++
        ⟨"setX", "Demo", ⟨7, 1⟩, []⟩ :: [] :=
  congrArg Collection.calls (ofSnapshot_rivals args)

theorem isEmittedIn_rivals : (Collection.ofSnapshot (rivals args) ["Demo"]).isEmittedIn "Demo"
    ⟨"setX", "Demo", ⟨7, 1⟩, []⟩ := rfl

theorem run_rivals : sample.run ⟨"file", .ok (rivals args)⟩ ["Demo"] =
    .ok (sample.assemble "file" (rivals args) (Collection.ofSnapshot (rivals args) ["Demo"])
      [(Collection.ofSnapshot (rivals args) ["Demo"]).skippingUnit "ScaleCodec" "Demo"]) := by
  have hgroups : (Collection.ofSnapshot (rivals args) ["Demo"]).groups = ["Demo"] :=
    congrArg Collection.groups (ofSnapshot_rivals args)
  have hunits : sample.units (Collection.ofSnapshot (rivals args) ["Demo"]) =
      .ok [(Collection.ofSnapshot (rivals args) ["Demo"]).skippingUnit "ScaleCodec" "Demo"] := by
    rw [units, hgroups]
    exact Collection.mapM_unit_skip _ _ _
  obtain ⟨f, hf, -⟩ := Collection.getElem?_functions "ScaleCodec" (calls_rivals args)
    (isEmittedIn_rivals args)
  rw [run_ok, show sample.wanted ["Demo"] = ["Demo"] from rfl,
    runOn_of_units (by rw [hgroups]; exact List.cons_ne_nil _ _) hunits, if_neg]
  intro hnone
  have hempty := List.isEmpty_iff.1 (List.all_eq_true.1 hnone _ List.mem_cons_self)
  rw [hempty] at hf
  cases hf

end Rivals

/-- The first call leads to a type without a layout. It has no function, but it has the name
that the function of the second call has as well. -/
theorem callNames_differ_rivals : ∃ snapshot generation,
    sample.run ⟨"file", .ok snapshot⟩ ["Demo"] = .ok generation ∧
      let collection := Collection.ofSnapshot snapshot ["Demo"]
      ⟨"PalletCalls.sol", CallsContract.text "PalletCalls" collection.callEntries
        (sample.header "file" snapshot)⟩ ∈ generation.files ∧
      ∃ unit ∈ generation.units, ∃ f ∈ unit.functions, ∃ entry ∈ collection.callEntries,
        entry.index = f.index ∧ entry.qualified = f.qualified ∧
          f.name = "demo_setX" ∧ entry.member = "demo_setX_2" := by
  let args : List Argument := [⟨"f", "Fn"⟩]
  refine ⟨rivals args, _, run_rivals args, ?_, _, List.mem_cons_self, ?_⟩
  · exact List.mem_append_left _ (List.mem_append_right _ List.mem_cons_self)
  · obtain ⟨f, entry, hf, hentry, hnamed⟩ := Collection.namedTwice_of_split "ScaleCodec"
      (calls_rivals args) (isEmittedIn_rivals args)
    exact ⟨f, List.mem_of_getElem? hf, entry, List.mem_of_getElem? hentry,
      hnamed.index.trans hnamed.encoder.index.symm,
      hnamed.qualified.trans hnamed.encoder.qualified.symm,
      hnamed.name.trans (by decide +kernel), hnamed.member.trans (by decide +kernel)⟩

theorem callNames_eq_rivals : ∃ generation,
    sample.run ⟨"file", .ok (rivals [])⟩ ["Demo"] = .ok generation ∧
      ∃ unit ∈ generation.units, ∃ f ∈ unit.functions,
        ∃ entry ∈ (Collection.ofSnapshot (rivals []) ["Demo"]).callEntries,
          f.qualified = "Demo.setX" ∧ entry.index = f.index ∧ f.name = "demo_setX_2" ∧
            entry.member = f.name := by
  obtain ⟨f, hf, hencoder, hname⟩ := Collection.getElem?_functions "ScaleCodec" (calls_rivals [])
    (isEmittedIn_rivals [])
  obtain ⟨snapshot, hsnapshot, -, -, hnames⟩ :=
    callNames_eq_iff sample ⟨"file", .ok (rivals [])⟩ ["Demo"] _ (run_rivals []) rfl
  cases hsnapshot
  obtain ⟨front, call, back, entry, hcalls, -, -, -, hentry, hnamed, hsame⟩ :=
    hnames _ List.mem_cons_self _ f hf
  refine ⟨_, run_rivals [], _, List.mem_cons_self, f, List.mem_of_getElem? hf, entry,
    List.mem_of_getElem? hentry, hencoder.qualified, hnamed.index.trans hnamed.encoder.index.symm,
    hname.trans (by decide +kernel), (hsame.2 fun earlier hearlier hbase => ?_).symm⟩
  -- both calls are of one group and take nothing
  have hall : ∀ c ∈ front ++ call :: back, c.group = "Demo" ∧ c.args = [] := by
    rw [← hcalls]
    simp [show sample.wanted ["Demo"] = ["Demo"] from rfl, calls_rivals]
  obtain ⟨hgroup, hargs⟩ := hall earlier (List.mem_append_left _ hearlier)
  obtain ⟨hgroup', -⟩ := hall call (List.mem_append_right _ List.mem_cons_self)
  exact ⟨hgroup.trans hgroup'.symm, fun arg harg => by rw [hargs] at harg; cases harg⟩

end Generator

end ScaleCalls
