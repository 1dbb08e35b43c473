import ScaleCalls.Proofs.Solidity.Encoders
import ScaleCalls.Proofs.Types.DepthFirst

/-!
# The policy is applied to exactly the calls that cannot be encoded

A call cannot be encoded if one of its arguments leads to a type without a layout. The
unit of a group goes through the calls of the group in order: each becomes a function or
a skip note, and a note lists the arguments that stand in the way, each with the first
fault in depth-first order. Where calls are not to be skipped, the first note is what
makes the unit fail.

## Main definitions

- `Noted` — what is noted of the arguments of a call
- `Apportioned` — calls as functions and skip notes

## Main statements

- `Collection.apportioned_unitOf` — every call has its function or its note
- `Collection.unit_applies_policy` — what the two policies make of a group
-/

namespace ScaleCalls

open Solidity

/-- A function is the encoder of a call: its body is the index of the call and then one
parameter for each argument. -/
structure EncoderOf (f : CallFunction) (call : ResolvedCall) : Prop where
  qualified : f.qualified = call.qualified
  index : f.index = call.index
  arity : f.params.length = call.args.length
  body : f.body = .concat (.callIndex call.index :: f.params.map Lowering.encodeParam)

/-- A call all of whose arguments have a layout, as far as they lead. -/
def Encodable (catalog : Catalog) (call : ResolvedCall) : Prop :=
  ∀ arg ∈ call.args, ¬ catalog.Blocked arg.handle

/-- What is noted of some arguments, in order: those that lead to a fault, each as the
metadata has it and with the first fault that a depth-first visit comes to. -/
inductive Noted (catalog : Catalog) : List ResolvedArgument → List UnsupportedArgument → Prop
  | nil : Noted catalog [] []
  | fine {arg : ResolvedArgument} {args : List ResolvedArgument} {noted : List UnsupportedArgument}
      (h : ¬ catalog.Blocked arg.handle) (hrest : Noted catalog args noted) :
      Noted catalog (arg :: args) noted
  | blocked {arg : ResolvedArgument} {args : List ResolvedArgument}
      {noted : List UnsupportedArgument} {order : List String} {fault : TypeFault}
      (h : catalog.Blocked arg.handle) (horder : catalog.DepthFirst ∅ [arg.handle] order)
      (hfault : order.findSome? catalog.fault? = some fault) (hrest : Noted catalog args noted) :
      Noted catalog (arg :: args) (⟨arg.name, arg.reference, fault⟩ :: noted)

/-- Calls are apportioned to functions and skip notes, both in the order of the calls. -/
inductive Apportioned (catalog : Catalog) :
    List ResolvedCall → List CallFunction → List SkipNote → Prop
  | nil : Apportioned catalog [] [] []
  | encoded {call : ResolvedCall} {calls : List ResolvedCall} {f : CallFunction}
      {functions : List CallFunction} {notes : List SkipNote}
      (h : Encodable catalog call) (hf : EncoderOf f call)
      (hrest : Apportioned catalog calls functions notes) :
      Apportioned catalog (call :: calls) (f :: functions) notes
  | skipped {call : ResolvedCall} {calls : List ResolvedCall} {functions : List CallFunction}
      {args : List UnsupportedArgument} {notes : List SkipNote}
      (h : ¬ Encodable catalog call) (hargs : Noted catalog call.args args)
      (hrest : Apportioned catalog calls functions notes) :
      Apportioned catalog (call :: calls) functions (⟨call.qualified, call.index, args⟩ :: notes)

theorem Noted.eq_nil_iff {catalog : Catalog} {args : List ResolvedArgument}
    {noted : List UnsupportedArgument} (h : Noted catalog args noted) :
    noted = [] ↔ ∀ arg ∈ args, ¬ catalog.Blocked arg.handle := by
  induction h with
  | nil => simp
  | fine h _ ih => simp [ih, h]
  | blocked h _ _ _ _ => simp [h]

theorem Apportioned.functions_eq_nil_iff {catalog : Catalog} {calls : List ResolvedCall}
    {functions : List CallFunction} {notes : List SkipNote}
    (h : Apportioned catalog calls functions notes) :
    functions = [] ↔ ∀ call ∈ calls, ¬ Encodable catalog call := by
  induction h with
  | nil => simp
  | encoded h _ _ _ => simp [h]
  | skipped h _ _ ih => simp [ih, h]

/-- Every call goes into one of the two lists, and into it once. -/
theorem Apportioned.perm_qualified {catalog : Catalog} {calls : List ResolvedCall}
    {functions : List CallFunction} {notes : List SkipNote}
    (h : Apportioned catalog calls functions notes) :
    (functions.map CallFunction.qualified ++ notes.map SkipNote.qualified).Perm
      (calls.map ResolvedCall.qualified) := by
  induction h with
  | nil => exact .nil
  | encoded _ hf _ ih =>
    rw [List.map_cons, List.map_cons, hf.qualified]
    exact ih.cons _
  | skipped _ _ _ ih =>
    rw [List.map_cons, List.map_cons]
    exact List.perm_middle.trans (ih.cons _)

namespace Collection

variable {collection : Collection} {call : ResolvedCall} {calls : List ResolvedCall}

theorem noted_unsupportedArgs (hc : collection.catalog.Consistent) (call : ResolvedCall) :
    Noted collection.catalog call.args (collection.unsupportedArgs call) := by
  unfold unsupportedArgs
  induction call.args with
  | nil => exact .nil
  | cons arg args ih =>
    have hblocked := Catalog.isSome_firstUnsupported? hc arg.handle
    obtain ⟨order, horder, hfirst⟩ := Catalog.exists_depthFirst hc arg.handle
    rw [List.filterMap_cons]
    cases hoffence : collection.catalog.firstUnsupported? arg.handle with
    | none =>
      rw [hoffence] at hblocked
      exact .fine (fun h => by cases hblocked.2 h) ih
    | some offence =>
      rw [hoffence] at hblocked hfirst
      exact .blocked (hblocked.1 rfl) horder hfirst.symm ih

theorem isSupported_iff_eq_nil :
    collection.isSupported call ↔ collection.unsupportedArgs call = [] := by
  rw [isSupported, List.isEmpty_iff]

/-- A call is left out exactly if one of its arguments leads to a fault. -/
theorem isSupported_iff (hc : collection.catalog.Consistent) :
    collection.isSupported call ↔ Encodable collection.catalog call := by
  rw [isSupported_iff_eq_nil]
  exact (noted_unsupportedArgs hc call).eq_nil_iff

theorem encoderOf_function (lowering : Lowering) (name : String) (call : ResolvedCall) :
    EncoderOf (lowering.function name call) call where
  qualified := rfl
  index := rfl
  arity := by simp [Lowering.function, Lowering.length_params]
  body := rfl

/-- The notes on the calls that are left out. -/
def notes (collection : Collection) (calls : List ResolvedCall) : List SkipNote :=
  (calls.filter fun call => !collection.isSupported call).map collection.skipNote

theorem notes_cons (collection : Collection) (call : ResolvedCall) (calls : List ResolvedCall) :
    collection.notes (call :: calls) =
      if collection.isSupported call then collection.notes calls
      else collection.skipNote call :: collection.notes calls := by
  cases h : collection.isSupported call <;> simp [notes, h]

theorem apportioned_of_encoders (hc : collection.catalog.Consistent)
    {functions : List CallFunction}
    (h : List.Forall₂ EncoderOf functions (calls.filter collection.isSupported)) :
    Apportioned collection.catalog calls functions (collection.notes calls) := by
  induction calls generalizing functions with
  | nil =>
    cases h
    exact .nil
  | cons call calls ih =>
    rw [notes_cons]
    by_cases hcall : collection.isSupported call
    · rw [List.filter_cons, if_pos hcall] at h
      obtain ⟨f, rest, hf, hrest, rfl⟩ := List.forall₂_cons_right_iff.1 h
      rw [if_pos hcall]
      exact .encoded ((isSupported_iff hc).1 hcall) hf (ih hrest)
    · rw [List.filter_cons, if_neg hcall] at h
      rw [if_neg hcall]
      exact .skipped (mt (isSupported_iff hc).2 hcall) (noted_unsupportedArgs hc call) (ih h)

/-- The unit that is made of a group where calls may be skipped. -/
def skippingUnit (collection : Collection) (codecLibrary group : String) : SourceUnit :=
  collection.unitOf codecLibrary group (collection.supportedCalls group)
    (collection.notes (collection.callsOf group))

theorem apportioned_unitOf (hc : collection.catalog.Consistent) (codecLibrary group : String) :
    Apportioned collection.catalog (collection.callsOf group)
      (collection.skippingUnit codecLibrary group).functions
      (collection.skippingUnit codecLibrary group).skipped := by
  refine apportioned_of_encoders hc ?_
  refine (functions_unitOf collection codecLibrary _ _ _).imp ?_
  rintro f call ⟨name, rfl⟩
  exact encoderOf_function _ name call

/-! ## Which call makes a unit fail -/

theorem firstRefused?_eq_none (hc : collection.catalog.Consistent) :
    collection.firstRefused? calls = none ↔ ∀ call ∈ calls, Encodable collection.catalog call := by
  simp only [firstRefused?, List.findSome?_eq_none_iff, Option.map_eq_none_iff,
    List.head?_eq_none_iff, ← isSupported_iff hc, isSupported_iff_eq_nil]

/-- The call that makes a unit fail is the first one that cannot be encoded. -/
theorem exists_of_firstRefused? (hc : collection.catalog.Consistent) {refused : RefusedCall}
    (h : collection.firstRefused? calls = some refused) :
    ∃ front call back arg args, calls = front ++ call :: back ∧
      (∀ c ∈ front, Encodable collection.catalog c) ∧
      Noted collection.catalog call.args (arg :: args) ∧ refused = ⟨call.qualified, arg⟩ := by
  obtain ⟨front, call, back, rfl, hcall, hfront⟩ := List.findSome?_eq_some_iff.1 h
  obtain ⟨arg, harg, rfl⟩ := Option.map_eq_some_iff.1 hcall
  obtain ⟨args, hargs⟩ := List.head?_eq_some_iff.1 harg
  refine ⟨front, call, back, arg, args, rfl, ?_, hargs ▸ noted_unsupportedArgs hc call, rfl⟩
  exact (firstRefused?_eq_none hc).1 (List.findSome?_eq_none_iff.2 hfront)

/-- The call that makes a unit fail is that of the first note, with its first argument. -/
theorem firstRefused?_eq_head? (collection : Collection) (calls : List ResolvedCall) :
    collection.firstRefused? calls = (collection.notes calls).head?.bind fun note =>
      note.args.head?.map fun arg => ⟨note.qualified, arg⟩ := by
  unfold firstRefused?
  induction calls with
  | nil => rfl
  | cons call calls ih =>
    rw [List.findSome?_cons, notes_cons]
    by_cases hcall : collection.isSupported call
    · rw [if_pos hcall, isSupported_iff_eq_nil.1 hcall, List.head?_nil, Option.map_none]
      exact ih
    · obtain ⟨arg, args, hargs⟩ :=
        List.exists_cons_of_ne_nil (mt isSupported_iff_eq_nil.2 hcall)
      rw [if_neg hcall, hargs]
      simp [skipNote, hargs]

theorem unit_skip (collection : Collection) (codecLibrary group : String) :
    collection.unit .skip codecLibrary group = .ok (collection.skippingUnit codecLibrary group) :=
  rfl

theorem unit_fail (collection : Collection) (codecLibrary group : String) :
    collection.unit .fail codecLibrary group =
      match collection.firstRefused? (collection.callsOf group) with
      | some refused => .error refused
      | none => .ok (collection.skippingUnit codecLibrary group) := by
  unfold Collection.unit
  dsimp only
  cases collection.firstRefused? (collection.callsOf group) <;> rfl

/-- Under either policy, a unit that is made is the one that skips calls. -/
theorem eq_skippingUnit {policy : Policy} {codecLibrary group : String} {unit : SourceUnit}
    (h : collection.unit policy codecLibrary group = .ok unit) :
    unit = collection.skippingUnit codecLibrary group := by
  cases policy with
  | skip =>
    rw [unit_skip] at h
    exact (Except.ok.inj h).symm
  | fail =>
    rw [unit_fail] at h
    split at h <;> cases h
    rfl

theorem callsOf_eq_filter (collection : Collection) (group : String) :
    collection.callsOf group = collection.calls.filter fun call => call.group = group :=
  List.filter_congr fun _ _ => beq_eq_decide _ _

/-- Where calls may be skipped, the calls of a group, which are those of the collection that
belong to it, in order, are apportioned to the functions and the notes of its unit. Where they
may not, the outcome is that very unit if it has no notes, and otherwise the call of the first
note with the first argument in it. -/
theorem unit_applies_policy (calls : List ResolvedCall) (types : List Descriptor)
    (groups unknownGroups : List String) (codecLibrary group : String) :
    let collection : Collection := ⟨calls, .ofList types, groups, unknownGroups⟩
    ∃ unit, collection.unit .skip codecLibrary group = .ok unit ∧
      Apportioned collection.catalog (calls.filter fun call => call.group = group) unit.functions
        unit.skipped ∧
      (unit.skipped = [] → collection.unit .fail codecLibrary group = .ok unit) ∧
      ∀ note notes, unit.skipped = note :: notes → ∃ arg args, note.args = arg :: args ∧
        collection.unit .fail codecLibrary group = .error ⟨note.qualified, arg⟩ := by
  intro collection
  have hc : collection.catalog.Consistent := Catalog.Consistent.ofList types
  refine ⟨_, collection.unit_skip codecLibrary group,
    callsOf_eq_filter collection group ▸ apportioned_unitOf hc codecLibrary group, ?_, ?_⟩
  · intro hnone
    have hrefused := collection.firstRefused?_eq_head? (collection.callsOf group)
    rw [show collection.notes (collection.callsOf group) = [] from hnone] at hrefused
    rw [unit_fail, hrefused]
    rfl
  · intro note notes hnotes
    have hnotes : collection.notes (collection.callsOf group) = note :: notes := hnotes
    have hrefused := collection.firstRefused?_eq_head? (collection.callsOf group)
    -- only calls with something to note are noted
    have hmem : note ∈ collection.notes (collection.callsOf group) :=
      hnotes ▸ List.mem_cons_self
    obtain ⟨call, hcall, rfl⟩ := List.mem_map.1 hmem
    have hleft : ¬ collection.isSupported call := by
      simpa using (List.mem_filter.1 hcall).2
    obtain ⟨arg, args, hargs⟩ := List.exists_cons_of_ne_nil (mt isSupported_iff_eq_nil.2 hleft)
    refine ⟨arg, args, hargs, ?_⟩
    rw [hnotes, List.head?_cons, Option.bind_some, skipNote, hargs] at hrefused
    rw [unit_fail, hrefused]
    rfl

/-- Two groups with a call each that cannot be encoded: only that of the group itself is in
the way of its unit. -/
theorem unit_applies_policy_sample :
    let calls : List ResolvedCall := [⟨"note", "Demo", ⟨7, 0⟩, [⟨"n", "u8", "u8"⟩]⟩,
      ⟨"pass", "Demo", ⟨7, 1⟩, [⟨"n", "u8", "u8"⟩, ⟨"f", "Vec<Fn>", "Vec<Fn>"⟩]⟩,
      ⟨"note", "Shed", ⟨8, 0⟩, [⟨"f", "Fn", "Fn"⟩]⟩, ⟨"pass", "Shed", ⟨8, 1⟩, []⟩]
    let types : List Descriptor := [⟨"u8", .primitive .u8⟩, ⟨"Vec<Fn>", .vector "Fn"⟩]
    let collection : Collection := ⟨calls, .ofList types, ["Demo", "Shed"], []⟩
    ∃ unit, collection.unit .skip "ScaleCodec" "Demo" = .ok unit ∧
      unit.functions.map CallFunction.qualified = ["Demo.note"] ∧
      unit.skipped.map SkipNote.qualified = ["Demo.pass"] ∧
      collection.unit .fail "ScaleCodec" "Demo" =
        .error ⟨"Demo.pass", ⟨"f", "Vec<Fn>", .unresolvable "Fn" "not in catalog"⟩⟩ := by
  intro calls types collection
  obtain ⟨unit, hskip, -, -, hfail⟩ :=
    unit_applies_policy calls types ["Demo", "Shed"] [] "ScaleCodec" "Demo"
  have hunit : unit = collection.skippingUnit "ScaleCodec" "Demo" := eq_skippingUnit hskip
  have hskipped : unit.skipped = [⟨"Demo.pass", ⟨7, 1⟩,
      [⟨"f", "Vec<Fn>", .unresolvable "Fn" "not in catalog"⟩]⟩] := by
    rw [hunit]
    decide +kernel
  obtain ⟨arg, args, hargs, herror⟩ := hfail _ _ hskipped
  cases hargs
  refine ⟨unit, hskip, ?_, by rw [hskipped]; rfl, herror⟩
  rw [hunit]
  decide +kernel

end Collection

end ScaleCalls
