import ScaleCalls.Proofs.Calls.Groups
import ScaleCalls.Proofs.Types.ClosedGraph

/-!
# A collection holds all that was asked for, however it was asked for

A name stands for the first group that it names in any case. The collection for some names
has each of these groups once and all their calls, none lost and none twice, in an order that
the calls themselves decide. Where no two groups have the same index the groups are in a fixed
order as well, and so are their references; then the catalog is the same, entry by entry, for
all lists of names that ask for the same groups.

## Main definitions

- `Snapshot.StandsFor` — the group that a name means
- `ResolvedCall.Precedes` — the order of calls
- `SameNames` — lists that ask for the same groups

## Main statements

- `Collection.matchedGroups_congr` — the same names match the same groups in the same order
- `Collection.ofSnapshot_complete` — what a collection holds, and what it does not depend on
-/

namespace ScaleCalls

/-- A name means the first group that has this name in any case. -/
def Snapshot.StandsFor (snapshot : Snapshot) (name : String) (pallet : Pallet) : Prop :=
  ∃ front back, snapshot.pallets = front ++ pallet :: back ∧ equalFold pallet.name name ∧
    ∀ other ∈ front, ¬ equalFold other.name name

/-- The order of calls: by the index of the group, by the index of the call, by name. -/
def ResolvedCall.Precedes (a b : ResolvedCall) : Prop :=
  a.index.group < b.index.group ∨ a.index.group = b.index.group ∧
    (a.index.call < b.index.call ∨ a.index.call = b.index.call ∧ a.name ≤ b.name)

/-- The names of two lists are the same up to order, repetition and the case of letters. -/
def SameNames (names others : List String) : Prop :=
  (∀ a ∈ names, ∃ b ∈ others, equalFold a b) ∧ ∀ b ∈ others, ∃ a ∈ names, equalFold a b

variable {snapshot : Snapshot} {names others : List String} {name : String} {pallet : Pallet}

theorem Snapshot.standsFor_iff :
    snapshot.StandsFor name pallet ↔ snapshot.pallet? name = some pallet := by
  rw [Snapshot.pallet?, List.find?_eq_some_iff_append]
  constructor
  · rintro ⟨front, back, heq, hname, hfront⟩
    exact ⟨hname, front, back, heq, fun other hother => by simpa using hfront other hother⟩
  · rintro ⟨hname, front, back, heq, hfront⟩
    exact ⟨front, back, heq, hname, fun other hother => by simpa using hfront other hother⟩

theorem Snapshot.mem_pallets_of_pallet? (h : snapshot.pallet? name = some pallet) :
    pallet ∈ snapshot.pallets :=
  List.mem_of_find?_eq_some h

theorem Snapshot.isNone_pallet? (snapshot : Snapshot) (name : String) :
    (snapshot.pallet? name).isNone = snapshot.pallets.all fun p => !equalFold p.name name := by
  rw [Bool.eq_iff_iff, Option.isNone_iff_eq_none, Snapshot.pallet?, List.find?_eq_none,
    List.all_eq_true]
  simp only [Bool.not_eq_true, Bool.not_eq_true']

/-- Only the letters of a name count for what it means. -/
theorem Snapshot.pallet?_congr {other : String} (h : equalFold name other) :
    snapshot.pallet? name = snapshot.pallet? other := by
  rw [equalFold, beq_iff_eq] at h
  simp only [Snapshot.pallet?, equalFold, h]

theorem ResolvedCall.le_iff {a b : ResolvedCall} : a.le b ↔ a.Precedes b := by
  unfold ResolvedCall.le ResolvedCall.Precedes
  have hgroup := UInt8.lt_or_lt_of_ne (a := a.index.group) (b := b.index.group)
  grind

namespace Collection

theorem mem_matchedGroups_congr (h : SameNames names others) :
    pallet ∈ matchedGroups snapshot names ↔ pallet ∈ matchedGroups snapshot others := by
  rw [(matches_matchedGroups snapshot names).mem_iff, (matches_matchedGroups snapshot others).mem_iff]
  constructor
  · rintro ⟨a, ha, hfound⟩
    obtain ⟨b, hb, hsame⟩ := h.1 a ha
    exact ⟨b, hb, (Snapshot.pallet?_congr hsame).symm.trans hfound⟩
  · rintro ⟨b, hb, hfound⟩
    obtain ⟨a, ha, hsame⟩ := h.2 b hb
    exact ⟨a, ha, (Snapshot.pallet?_congr hsame).trans hfound⟩

/-- Groups with different indices have one order only. -/
theorem matchedGroups_congr (hindices : (snapshot.pallets.map Pallet.index).Nodup)
    (h : SameNames names others) :
    matchedGroups snapshot names = matchedGroups snapshot others := by
  have hfirst := matches_matchedGroups snapshot names
  have hsecond := matches_matchedGroups snapshot others
  have hperm : (matchedGroups snapshot names).Perm (matchedGroups snapshot others) :=
    (List.perm_ext_iff_of_nodup (hfirst.nodup.of_map _) (hsecond.nodup.of_map _)).2
      fun _ => mem_matchedGroups_congr h
  refine List.Perm.eq_of_pairwise (fun p q hp hq hpq hqp => ?_) hfirst.sorted hsecond.sorted hperm
  obtain ⟨m, -, hm⟩ := (hfirst.mem_iff p).1 hp
  obtain ⟨n, -, hn⟩ := (hsecond.mem_iff q).1 hq
  exact List.inj_on_of_nodup_map hindices (Snapshot.mem_pallets_of_pallet? hm)
    (Snapshot.mem_pallets_of_pallet? hn) (UInt8.le_antisymm hpq hqp)

theorem pairwise_calls (snapshot : Snapshot) (names : List String) :
    (ofSnapshot snapshot names).calls.Pairwise ResolvedCall.Precedes :=
  (List.pairwise_mergeSort ResolvedCall.le_trans ResolvedCall.le_total _).imp ResolvedCall.le_iff.1

/-- The handle of an argument leads to the type of its reference. -/
theorem get?_handle {call : ResolvedCall} (hcall : call ∈ (ofSnapshot snapshot names).calls)
    {arg : ResolvedArgument} (harg : arg ∈ call.args) :
    (ofSnapshot snapshot names).catalog.get? arg.handle =
      some ((TypeTable.ofSnapshot snapshot).describe arg.handle) := by
  obtain ⟨pallet, hpallet, hcall⟩ := List.mem_flatMap.1 (List.mem_mergeSort.1 hcall)
  obtain ⟨raw, hraw, rfl⟩ := List.mem_map.1 hcall
  obtain ⟨rawArg, hrawArg, rfl⟩ := List.mem_map.1 harg
  have hreference : rawArg.reference ∈ (matchedGroups snapshot names).flatMap references :=
    List.mem_flatMap.2 ⟨pallet, hpallet, List.mem_flatMap.2 ⟨raw, hraw, List.mem_map_of_mem hrawArg⟩⟩
  exact TypeTable.get?_catalogOf_eq_some.2
    ⟨(TypeTable.catalogOf_closes snapshot _).enters _ (List.mem_map_of_mem hreference), rfl⟩

/-- The collection for some names has the groups that these stand for, each once and by
index; the names that stand for none, as they were asked for; and all calls of the groups in
their order, with the arguments as they are declared and a handle for each that leads to its
type. If no two groups of the snapshot have the same index, then calls, groups and catalog are
the same for all names that differ in order, repetition and case only. -/
theorem ofSnapshot_complete (snapshot : Snapshot) (names : List String) :
    let collection := ofSnapshot snapshot names
    let table := TypeTable.ofSnapshot snapshot
    (∃ pallets : List Pallet,
      (∀ pallet, pallet ∈ pallets ↔ ∃ name ∈ names, snapshot.StandsFor name pallet) ∧
      (pallets.map Pallet.name).Nodup ∧ (pallets.Pairwise fun p q => p.index ≤ q.index) ∧
      collection.groups = pallets.map Pallet.name ∧
      collection.calls.Perm (pallets.flatMap fun pallet => pallet.calls.map fun call =>
        ⟨call.name, pallet.name, ⟨pallet.index, call.index⟩,
          call.args.map fun arg => ⟨arg.name, arg.reference, table.handle arg.reference⟩⟩)) ∧
    collection.unknownGroups =
      names.filter (fun name => snapshot.pallets.all fun p => !equalFold p.name name) ∧
    collection.calls.Pairwise ResolvedCall.Precedes ∧
    (∀ call ∈ collection.calls, ∀ arg ∈ call.args,
      collection.catalog.get? arg.handle = some (table.describe arg.handle)) ∧
    ((snapshot.pallets.map Pallet.index).Nodup → ∀ others, SameNames names others →
      (ofSnapshot snapshot others).calls = collection.calls ∧
      (ofSnapshot snapshot others).groups = collection.groups ∧
      (ofSnapshot snapshot others).catalog = collection.catalog) := by
  intro collection table
  have hmatches := matches_matchedGroups snapshot names
  refine ⟨⟨matchedGroups snapshot names, fun pallet => ?_, hmatches.nodup, hmatches.sorted, rfl,
    List.mergeSort_perm _ _⟩, ?_, pairwise_calls snapshot names,
    fun call hcall arg harg => get?_handle hcall harg, fun hindices others hsame => ?_⟩
  · simp only [hmatches.mem_iff, Snapshot.standsFor_iff]
  · exact List.filter_congr fun name _ => snapshot.isNone_pallet? name
  · have hgroups := matchedGroups_congr hindices hsame
    unfold collection ofSnapshot
    rw [hgroups]
    exact ⟨rfl, rfl, rfl⟩

/-- Two groups, the second of which comes first by index. -/
def marketSnapshot : Snapshot where
  chain := ""
  specName := ""
  specVersion := 0
  pallets := [⟨"Market", 9, [⟨"sell", 1, [⟨"lots", "Vec<u32>"⟩]⟩, ⟨"buy", 0, []⟩]⟩,
    ⟨"Bank", 4, [⟨"pay", 0, [⟨"sum", "Compact<u128>"⟩]⟩]⟩]
  types := []

theorem ofSnapshot_complete_market :
    (ofSnapshot marketSnapshot ["Market", "nope", "bank"]).unknownGroups = ["nope"] ∧
    (ofSnapshot marketSnapshot ["BANK", "nope", "market", "Bank"]).calls =
      (ofSnapshot marketSnapshot ["Market", "nope", "bank"]).calls ∧
    (ofSnapshot marketSnapshot ["BANK", "nope", "market", "Bank"]).catalog =
      (ofSnapshot marketSnapshot ["Market", "nope", "bank"]).catalog := by
  obtain ⟨-, hunknown, -, -, hsame⟩ :=
    ofSnapshot_complete marketSnapshot ["Market", "nope", "bank"]
  obtain ⟨hcalls, -, hcatalog⟩ := hsame (by decide) ["BANK", "nope", "market", "Bank"]
    ⟨by decide +kernel, by decide +kernel⟩
  exact ⟨hunknown.trans (by decide +kernel), hcalls, hcatalog⟩

end Collection

end ScaleCalls
