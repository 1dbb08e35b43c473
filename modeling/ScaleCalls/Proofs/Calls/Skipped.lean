import ScaleCalls.Proofs.Calls.Independence

/-!
# Calls that are left out leave no trace

When a unit is made, the calls without a layout have entered all their types into the
catalog, and some of these may have the names of types that are declared. Only the types of
the encoded calls are named and declared, though, and the search that lists them sees no
others. So the unit is the one that is made where the calls left out had never been there.

## Main definitions

- `Snapshot.without` — a snapshot in which a group lacks some of its calls
- `Collection.isNoted` — whether a unit has a note on a call

## Main statements

- `Collection.unit_of_supported` — a collection of the encoded calls alone makes the same code
- `Collection.unit_without_skipped` — deleting the calls that are left out changes nothing
-/

namespace ScaleCalls

open Solidity

/-- A group without some of its calls. -/
def Pallet.without (pallet : Pallet) (p : Call → Bool) : Pallet :=
  { pallet with calls := pallet.calls.filter fun call => !p call }

/-- A snapshot in which one group lacks some of its calls. -/
def Snapshot.without (snapshot : Snapshot) (pallet : Pallet) (p : Call → Bool) : Snapshot :=
  { snapshot with
    pallets := snapshot.pallets.map fun other =>
      if other = pallet then pallet.without p else other }

/-- Groups are found under their names, and these are kept. -/
theorem Snapshot.pallet?_without {snapshot : Snapshot} {pallet : Pallet} {name : String}
    (h : snapshot.pallet? name = some pallet) (p : Call → Bool) :
    (snapshot.without pallet p).pallet? name = some (pallet.without p) := by
  have hkept : ((fun other : Pallet => equalFold other.name name) ∘ fun other : Pallet =>
      if other = pallet then pallet.without p else other) =
        fun other => equalFold other.name name := by
    funext other
    rw [Function.comp_apply]
    split
    · rename_i hsame
      rw [hsame]
      rfl
    · rfl
  rw [Snapshot.pallet?] at h
  rw [Snapshot.pallet?, Snapshot.without, List.find?_map, hkept, h, Option.map_some, if_pos rfl]

theorem Snapshot.without_congr {snapshot : Snapshot} {pallet : Pallet} {p q : Call → Bool}
    (h : ∀ call ∈ pallet.calls, p call = q call) :
    snapshot.without pallet p = snapshot.without pallet q := by
  have hcalls : pallet.calls.filter (fun call => !p call) =
      pallet.calls.filter fun call => !q call :=
    List.filter_congr fun call hcall => by rw [h call hcall]
  rw [Snapshot.without, Snapshot.without, Pallet.without, Pallet.without, hcalls]

namespace Collection

/-- A unit has a note on a call: one with the call's name and index, and with what stands in
its way. -/
def isNoted (collection : Collection) (unit : SourceUnit) (call : ResolvedCall) : Bool :=
  decide (collection.skipNote call ∈ unit.skipped)

/-- The notes of a unit are on exactly the calls that cannot be encoded. -/
theorem isNoted_skippingUnit (collection : Collection) (codecLibrary : String) {group : String}
    {call : ResolvedCall} (hcall : call ∈ collection.callsOf group) :
    collection.isNoted (collection.skippingUnit codecLibrary group) call =
      !collection.isSupported call := by
  rw [isNoted, Bool.eq_iff_iff, decide_eq_true_iff, Bool.not_eq_true']
  change collection.skipNote call ∈ collection.notes (collection.callsOf group) ↔ _
  rw [notes, List.mem_map]
  constructor
  · rintro ⟨other, hother, hsame⟩
    have hleft := (List.mem_filter.1 hother).2
    have hargs : collection.unsupportedArgs other = collection.unsupportedArgs call :=
      congrArg SkipNote.args hsame
    rw [Bool.not_eq_true', isSupported, hargs] at hleft
    exact hleft
  · intro hleft
    exact ⟨call, List.mem_filter.2 ⟨hcall, by rw [hleft, Bool.not_false]⟩, rfl⟩

/-! ## A collection of the encoded calls -/

/-- A collection whose calls of a group are the encoded ones of another makes the same code
under either policy, and has nothing to note. -/
theorem unit_of_supported {first second : Collection} {names : Set String}
    (h : first.catalog.Agree second.catalog names)
    (hbounded : Bounded first.catalog second.catalog names) (policy : Policy)
    (codecLibrary group : String) (hsame : second.callsOf group = first.supportedCalls group)
    (hcalls : ∀ call ∈ first.supportedCalls group, ∀ arg ∈ call.args, arg.handle ∈ names) :
    second.unit policy codecLibrary group =
      .ok { first.skippingUnit codecLibrary group with skipped := [] } := by
  have hsupported : ∀ call ∈ second.callsOf group, second.isSupported call := by
    intro call hcall
    rw [hsame] at hcall
    rw [isSupported, ← unsupportedArgs_eq h (hcalls call hcall)]
    exact (List.mem_filter.1 hcall).2
  have hnotes : second.notes (second.callsOf group) = [] := by
    rw [notes, List.map_eq_nil_iff, List.filter_eq_nil_iff]
    intro call hcall
    rw [hsupported call hcall]
    decide
  have hencoded : second.supportedCalls group = first.supportedCalls group := by
    rw [supportedCalls, List.filter_eq_self.2 hsupported, hsame]
  have hunit : second.skippingUnit codecLibrary group =
      { first.skippingUnit codecLibrary group with skipped := [] } := by
    rw [skippingUnit, hencoded, hnotes, ← unitOf_eq h hbounded codecLibrary group [] hcalls]
    rfl
  cases policy with
  | skip => rw [unit_skip, hunit]
  | fail => rw [unit_fail, firstRefused?_eq_head?, hnotes, hunit]; rfl

/-! ## Deleting calls from a snapshot -/

variable {snapshot : Snapshot} {requested : List String} {pallet : Pallet} {p : Call → Bool}

theorem matched_without (hmatched : ∃ name ∈ requested, snapshot.pallet? name = some pallet) :
    pallet.without p ∈ matchedGroups (snapshot.without pallet p) requested := by
  obtain ⟨name, hname, hfound⟩ := hmatched
  exact ((matches_matchedGroups _ requested).mem_iff _).2
    ⟨name, hname, Snapshot.pallet?_without hfound p⟩

/-- The calls that are left are in the same order. -/
theorem orderedCalls_without {table : TypeTable} {q : ResolvedCall → Bool}
    (hp : ∀ call ∈ pallet.calls, p call = !q (resolveCall table pallet call)) :
    orderedCalls table (pallet.without p) = (orderedCalls table pallet).filter q := by
  have hleft : (pallet.calls.filter fun call => !p call) =
      pallet.calls.filter (q ∘ resolveCall table pallet) :=
    List.filter_congr fun call hcall => by rw [hp call hcall, Bool.not_not, Function.comp_apply]
  rw [orderedCalls_eq_mergeSort, orderedCalls_eq_mergeSort,
    filter_mergeSort ResolvedCall.le_trans ResolvedCall.le_total, List.filter_map, ← hleft]
  rfl

/-- With fewer calls a group leads to fewer names. -/
theorem typeGraph_without_subset (table : TypeTable) :
    typeGraph table (pallet.without p) ⊆ typeGraph table pallet := by
  rintro name ⟨reference, hreference, hreaches⟩
  obtain ⟨call, hcall, hreference⟩ := List.mem_flatMap.1 hreference
  exact ⟨reference, List.mem_flatMap.2 ⟨call, (List.mem_filter.1 hcall).1, hreference⟩, hreaches⟩

/-- Whatever the calls reach that are left is the same without the deleted ones. -/
theorem agree_without (hmatched : ∃ name ∈ requested, snapshot.pallet? name = some pallet)
    {calls : List ResolvedCall}
    (hcalls : orderedCalls (TypeTable.ofSnapshot snapshot) (pallet.without p) = calls) :
    (ofSnapshot snapshot requested).catalog.Agree
      (ofSnapshot (snapshot.without pallet p) requested).catalog
      ((ofSnapshot snapshot requested).reached calls) := by
  have hfirst := ((matches_matchedGroups snapshot requested).mem_iff pallet).2 hmatched
  have hsecond := matched_without (p := p) hmatched
  have hget : ∀ name ∈ typeGraph (TypeTable.ofSnapshot snapshot) (pallet.without p),
      (ofSnapshot snapshot requested).catalog.get? name =
        (ofSnapshot (snapshot.without pallet p) requested).catalog.get? name := by
    intro name hname
    rw [get?_of_mem_typeGraph hfirst (typeGraph_without_subset _ hname),
      get?_of_mem_typeGraph hsecond hname]
    rfl
  -- the larger catalog has these names from the smaller walk too, so nothing leads out of them
  have hclosed : (ofSnapshot snapshot requested).catalog.Closed
      (typeGraph (TypeTable.ofSnapshot snapshot) (pallet.without p)) := by
    rintro name hname child ⟨d, hd, hchild⟩
    exact closed_typeGraph hsecond name hname child ⟨d, (hget name hname).symm.trans hd, hchild⟩
  refine ⟨consistent_ofSnapshot snapshot requested, consistent_ofSnapshot _ requested, ?_, ?_⟩
  · rintro name ⟨call, hcall, arg, harg, hreaches⟩
    subst hcalls
    exact hget name (hclosed.mem_of_reaches (mem_typeGraph_of_mem_orderedCalls hcall arg harg)
      hreaches)
  · rintro name ⟨call, hcall, arg, harg, hreaches⟩ child hchild
    exact ⟨call, hcall, arg, harg, hreaches.tail hchild⟩

/-- Take the unit of a group where calls may be skipped, and delete from the group the calls
that the unit has notes on. What is made then, be it allowed to skip calls or not, is the same
unit without notes. If no call is left, there are no functions and no declarations in it.
The containers that the encoded calls reach must not contain themselves, else no unit is ever
finished. -/
theorem unit_without_skipped (snapshot : Snapshot) (requested : List String) (pallet : Pallet)
    (codecLibrary : String) (unit : SourceUnit)
    (hmatched : ∃ name ∈ requested, snapshot.pallet? name = some pallet)
    (hunit : (ofSnapshot snapshot requested).unit .skip codecLibrary pallet.name = .ok unit)
    (hcycle : ∀ name ∈ (ofSnapshot snapshot requested).reached
        ((ofSnapshot snapshot requested).supportedCalls pallet.name),
      ¬ Relation.TransGen (ofSnapshot snapshot requested).catalog.Holds name name) :
    let noted : Call → Bool := fun call => (ofSnapshot snapshot requested).isNoted unit
      (resolveCall (TypeTable.ofSnapshot snapshot) pallet call)
    (∀ policy, (ofSnapshot (snapshot.without pallet noted) requested).unit policy codecLibrary
      pallet.name = .ok { unit with skipped := [] }) ∧
    ((pallet.without noted).calls = [] → unit.functions = [] ∧ unit.declarations = []) := by
  intro noted
  obtain rfl := eq_skippingUnit hunit
  have hfirst := ((matches_matchedGroups snapshot requested).mem_iff pallet).2 hmatched
  have hsecond := matched_without (p := noted) hmatched
  have hcallsOf := callsOf_ofSnapshot hfirst
  have hnoted : ∀ call ∈ pallet.calls, noted call = !(ofSnapshot snapshot requested).isSupported
      (resolveCall (TypeTable.ofSnapshot snapshot) pallet call) := by
    intro call hcall
    have hmem : resolveCall (TypeTable.ofSnapshot snapshot) pallet call ∈
        (ofSnapshot snapshot requested).callsOf pallet.name := by
      rw [hcallsOf]
      exact List.mem_map_of_mem (List.mem_mergeSort.2 hcall)
    exact isNoted_skippingUnit _ codecLibrary hmem
  have hleft : orderedCalls (TypeTable.ofSnapshot snapshot) (pallet.without noted) =
      (ofSnapshot snapshot requested).supportedCalls pallet.name := by
    rw [orderedCalls_without hnoted, supportedCalls, hcallsOf]
  have hagree := agree_without hmatched hleft
  refine ⟨fun policy => ?_, fun hnone => ?_⟩
  · refine unit_of_supported hagree (.of_acyclic hagree hcycle) policy codecLibrary pallet.name
      ((callsOf_ofSnapshot hsecond).trans hleft) ?_
    exact fun call hcall arg harg => ⟨call, hcall, arg, harg, .refl⟩
  · have hempty : (ofSnapshot snapshot requested).supportedCalls pallet.name = [] := by
      rw [← hleft, orderedCalls, hnone, List.mergeSort_nil, List.map_nil]
    rw [skippingUnit, hempty]
    exact ⟨rfl, rfl⟩

/-- One call needs two types with the same last name and a function pointer, the other
only a list of the second type. -/
def pairsPallet : Pallet :=
  ⟨"Garden", 3, [⟨"sow", 0, [⟨"pair", "a::Pair"⟩, ⟨"more", "b::Pair"⟩, ⟨"then", "Fn"⟩]⟩,
    ⟨"plant", 1, [⟨"pairs", "Vec<b::Pair>"⟩]⟩]⟩

def pairsSnapshot : Snapshot where
  chain := ""
  specName := ""
  specVersion := 0
  pallets := [⟨"Shed", 1, [⟨"store", 0, [⟨"pair", "a::Pair"⟩]⟩]⟩, pairsPallet]
  types := [⟨0, "a::Pair", [], some (.object [("x", .string "u8")])⟩,
    ⟨1, "b::Pair", [], some (.object [("y", .string "u16")])⟩]

def pairsCollection : Collection where
  calls := pairsPallet.calls.map (resolveCall (TypeTable.ofSnapshot pairsSnapshot) pairsPallet)
  catalog := (TypeTable.ofSnapshot pairsSnapshot).catalogOf (references pairsPallet)
  groups := ["Garden"]
  unknownGroups := []

theorem ofSnapshot_pairs : ofSnapshot pairsSnapshot ["garden"] = pairsCollection := by
  have hfound : pairsSnapshot.pallet? "garden" = some pairsPallet := rfl
  exact ofSnapshot_singleton hfound (by decide)

/-- The list is the only container. -/
theorem endsWithin_pairs : ∀ name ∈ pairsCollection.reached
      (pairsCollection.supportedCalls "Garden"), pairsCollection.catalog.EndsWithin 1 name := by
  obtain ⟨hroots, hclosed⟩ :
      (∀ call ∈ pairsCollection.supportedCalls "Garden", ∀ arg ∈ call.args,
        arg.handle ∈ ["Vec<b::Pair>", "b::Pair", "u16"]) ∧
      ∀ a ∈ ["Vec<b::Pair>", "b::Pair", "u16"],
        (∀ child ∈ (pairsCollection.catalog.kindOf a).children,
          child ∈ ["Vec<b::Pair>", "b::Pair", "u16"]) ∧
        ∀ elem ∈ (pairsCollection.catalog.kindOf a).element?,
          (pairsCollection.catalog.kindOf elem).element? = none := by
    decide
  have hreached : ∀ name ∈ pairsCollection.reached (pairsCollection.supportedCalls "Garden"),
      name ∈ ["Vec<b::Pair>", "b::Pair", "u16"] := by
    rintro name ⟨call, hcall, arg, harg, hreaches⟩
    induction hreaches with
    | refl => exact hroots call hcall arg harg
    | tail _ hchild ih => exact (hclosed _ ih).1 _ (Catalog.refers_iff.1 hchild)
  exact fun name hname elem helem => (hclosed name (hreached name hname)).2 elem helem

theorem unit_without_skipped_pairs : ∃ unit,
    (ofSnapshot pairsSnapshot ["garden"]).unit .skip "ScaleCodec" "Garden" = .ok unit ∧
      unit.skipped.map SkipNote.qualified = ["Garden.sow"] ∧
      unit.codecs.map (fun codec => (codec.typeName, codec.name)) =
        [("b::Pair", "PairCodec"), ("Vec<b::Pair>", "VecPairCodec")] ∧
      (ofSnapshot (pairsSnapshot.without pairsPallet fun call => call.name == "sow")
        ["garden"]).unit .fail "ScaleCodec" "Garden" = .ok { unit with skipped := [] } := by
  have hunit := unit_skip (ofSnapshot pairsSnapshot ["garden"]) "ScaleCodec" "Garden"
  have hwithout := (unit_without_skipped pairsSnapshot ["garden"] pairsPallet "ScaleCodec" _
    ⟨"garden", by decide, rfl⟩ hunit fun name hname => by
      rw [ofSnapshot_pairs] at hname ⊢
      exact (endsWithin_pairs name hname).not_returns).1 .fail
  obtain ⟨hnoted, hskipped, hcodecs⟩ :
      (∀ call ∈ pairsPallet.calls, (call.name == "sow") =
        pairsCollection.isNoted (pairsCollection.skippingUnit "ScaleCodec" "Garden")
          (resolveCall (TypeTable.ofSnapshot pairsSnapshot) pairsPallet call)) ∧
      (pairsCollection.skippingUnit "ScaleCodec" "Garden").skipped.map SkipNote.qualified =
        ["Garden.sow"] ∧
      (pairsCollection.skippingUnit "ScaleCodec" "Garden").codecs.map
          (fun codec => (codec.typeName, codec.name)) =
        [("b::Pair", "PairCodec"), ("Vec<b::Pair>", "VecPairCodec")] := by
    decide
  rw [ofSnapshot_pairs] at hwithout
  rw [ofSnapshot_pairs, Snapshot.without_congr hnoted]
  exact ⟨_, unit_skip _ _ _, hskipped, hcodecs, hwithout⟩

end Collection

end ScaleCalls
