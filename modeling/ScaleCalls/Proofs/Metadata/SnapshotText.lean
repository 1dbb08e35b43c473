import Mathlib.Algebra.Group.Nat.Defs
import ScaleCalls.Metadata.SnapshotText
import ScaleCalls.Proofs.Json.Pretty
import ScaleCalls.Registry.Flatten

/-!
# Snapshots are read back from their texts

A record is written with its members in order, and members that may be left out are left
out exactly where reading puts the same thing in their place. So what is written for a
snapshot is read as the same snapshot, if its definitions are plain and fit into the
document, which they do when they come from a document or from a registry.

## Main definitions

- `TypeEntry.Fits` — a definition that can stand in a document

## Main statements

- `Snapshot.ofWritten?_written` — records are read back, whatever is in their texts
- `Snapshot.ofText?_toText` — a snapshot whose definitions fit is given back by its text
- `Snapshot.fits_of_ofText?`, `Registry.fits_snapshot` — where definitions fit
-/

namespace ScaleCalls

open Json (Written)

namespace Json

/-! ## Members by their keys -/

theorem filter_key_eq {β : Type} {members : List (String × β)} (h : (members.map Prod.fst).Nodup)
    (key : String) : members.filter (fun m => m.1 == key) =
      ((members.lookup key).map (key, ·)).toList := by
  induction members with
  | nil => rfl
  | cons member members ih =>
    obtain ⟨k, v⟩ := member
    rw [List.map_cons, List.nodup_cons] at h
    by_cases hkey : k = key
    · subst hkey
      have hnone : members.filter (fun m => m.1 == k) = [] := by
        refine List.filter_eq_nil_iff.2 fun m hm heq => h.1 ?_
        exact List.mem_map.2 ⟨m, hm, beq_iff_eq.1 heq⟩
      simp [hnone]
    · have hother : (key == k) = false := beq_eq_false_iff_ne.2 (Ne.symm hkey)
      rw [List.filter_cons_of_neg (by simpa using hkey), List.lookup_cons, hother]
      exact ih h.2

theorem lookup_map_snd {β γ : Type} (f : β → γ) (members : List (String × β)) (key : String) :
    (members.map fun m => (m.1, f m.2)).lookup key = (members.lookup key).map f := by
  induction members with
  | nil => rfl
  | cons member members ih =>
    rw [List.map_cons, List.lookup_cons, List.lookup_cons, ih]
    cases key == member.1 <;> rfl

/-- The members of an object that has each key once are found by their keys. -/
theorem record?_written {members : Members} (h : (members.map Prod.fst).Nodup)
    (keys : List String) : (written (.object members)).record? keys =
      some (keys.map fun key => (members.lookup key).map written) := by
  have hnamed : (writtenMembers members).mapM (fun m => do return (← text? m.1, m.2)) =
      some (members.map fun m => (m.1, written m.2)) := by
    rw [writtenMembers_eq_map, List.mapM_map]
    refine mapM_eq_some_map fun m _ => ?_
    rw [Function.comp_apply, text?_spelled]
    rfl
  have hkeys : ((members.map fun m => (m.1, written m.2)).map Prod.fst).Nodup := by
    rwa [List.map_map]
  rw [written, Written.record?, Written.members?, hnamed]
  refine mapM_eq_some_map fun key _ => ?_
  rw [filter_key_eq hkeys, lookup_map_snd]
  cases members.lookup key <;> rfl

theorem string?_written (s : String) : (written (.string s)).string? = some s := by
  rw [written, Written.string?, text?_spelled]

theorem natural?_written {limit n : Nat} (h : n < limit) :
    (written (.ofNat n)).natural? limit = some n := by
  have hsign : decide ((n : Int) < 0) = false := decide_eq_false (by omega)
  rw [ofNat, written, numeral, hsign, Int.natAbs_natCast, Written.natural?,
    Text.digits?_toDigits h]

theorem byte?_written (n : UInt8) : (written (.ofNat n.toNat)).byte? = some n := by
  rw [Written.byte?, natural?_written n.toNat_lt, Option.map_some, UInt8.ofNat_toNat]

theorem word?_written (n : UInt32) : (written (.ofNat n.toNat)).word? = some n := by
  have hlimit : n.toNat < Text.limit32 := n.toNat_lt
  rw [Written.word?, natural?_written hlimit, Option.map_some, UInt32.ofNat_toNat]

theorem list?_written {α : Type} {toJson : α → Json} {ofWritten? : Written → Option α}
    {as : List α} (h : ∀ a ∈ as, ofWritten? (written (toJson a)) = some a) :
    (written (.array (as.map toJson))).list? ofWritten? = some as := by
  have hall : as.mapM (ofWritten? ∘ written ∘ toJson) = some (as.map id) := mapM_eq_some_map h
  rwa [List.map_id, ← List.mapM_map, ← List.map_map, ← writtenItems_eq_map] at hall

theorem written_ne_null {depth : Nat} {value : Json} (h : value.Plain depth)
    (hne : value ≠ .null) : written value ≠ .null := by
  cases h with
  | null => exact absurd rfl hne
  | _ => exact nofun

theorem optional?_written {depth : Nat} {value : Json} (h : value.Plain depth)
    (hne : value ≠ .null) :
    (written value).optional? (Written.value? depth) = some (some value) := by
  rw [Written.optional?.eq_2 _ _ (written_ne_null h hne), value?_written h, Option.map_some]

end Json

theorem Argument.ofWritten?_written (arg : Argument) : ofWritten? arg.toJson.written = some arg := by
  rw [ofWritten?, toJson, Json.record?_written (by simp)]
  simp [List.lookup_cons, Json.string?_written]

theorem Call.ofWritten?_written (call : Call) : ofWritten? call.toJson.written = some call := by
  rw [ofWritten?, toJson, Json.record?_written (by simp)]
  simp [List.lookup_cons, Json.string?_written, Json.byte?_written, Written.orElse,
    Json.list?_written fun a _ => Argument.ofWritten?_written a]

theorem Pallet.ofWritten?_written (pallet : Pallet) :
    ofWritten? pallet.toJson.written = some pallet := by
  rw [ofWritten?, toJson, Json.record?_written (by simp)]
  simp [List.lookup_cons, Json.string?_written, Json.byte?_written, Written.orElse,
    Json.list?_written fun c _ => Call.ofWritten?_written c]

/-- The definition of a type can stand in a document: it is plain within the levels that the
document leaves, and not the value that stands for no definition. -/
def TypeEntry.Fits (entry : TypeEntry) : Prop :=
  ∀ definition ∈ entry.definition,
    definition ≠ .null ∧ definition.Plain (Json.maxDepth - definitionLevel)

/-- The members that are written for a type. -/
def TypeEntry.members (entry : TypeEntry) : Json.Members :=
  [("id", .ofNat entry.id.toNat), ("name", .string entry.name)]
    ++ (if entry.path.isEmpty then [] else [("path", .array (entry.path.map .string))])
    ++ (match entry.definition with
      | none => []
      | some definition => [("def", definition)])

theorem TypeEntry.nodup_members (entry : TypeEntry) : (entry.members.map Prod.fst).Nodup := by
  obtain ⟨id, name, path, definition⟩ := entry
  cases path <;> cases definition <;> simp [members]

theorem TypeEntry.lookup_members (entry : TypeEntry) :
    entry.members.lookup "id" = some (.ofNat entry.id.toNat) ∧
      entry.members.lookup "name" = some (.string entry.name) ∧
      entry.members.lookup "path" =
        (if entry.path.isEmpty then none else some (.array (entry.path.map .string))) ∧
      entry.members.lookup "def" = entry.definition := by
  obtain ⟨id, name, path, definition⟩ := entry
  cases path <;> cases definition <;> simp [members, List.lookup_cons]

theorem TypeEntry.ofWritten?_written {entry : TypeEntry} (h : entry.Fits) :
    ofWritten? entry.toJson.written = some entry := by
  obtain ⟨hid, hname, hpath, hdefinition⟩ := entry.lookup_members
  have hreadPath : Written.orElse [] (Written.list? Written.string?)
      ((entry.members.lookup "path").map Json.written) = some entry.path := by
    rw [hpath]
    cases hentry : entry.path with
    | nil => rfl
    | cons segment path => exact Json.list?_written fun s _ => Json.string?_written s
  have hreadDefinition : Written.orElse none
      (Written.optional? (Written.value? (Json.maxDepth - definitionLevel)))
      ((entry.members.lookup "def").map Json.written) = some entry.definition := by
    rw [hdefinition]
    cases hentry : entry.definition with
    | none => rfl
    | some definition =>
      obtain ⟨hne, hplain⟩ := h definition hentry
      exact Json.optional?_written hplain hne
  have hrecord := Json.record?_written entry.nodup_members ["id", "name", "path", "def"]
  rw [ofWritten?, show entry.toJson = .object entry.members from rfl, hrecord]
  simp [hid, hname, hreadPath, hreadDefinition, Json.word?_written, Json.string?_written]

/-- Records are read back from the spelling of what is written for them. -/
theorem Snapshot.ofWritten?_written {snapshot : Snapshot}
    (h : ∀ entry ∈ snapshot.types, entry.Fits) :
    ofWritten? snapshot.toJson.written = some snapshot := by
  rw [ofWritten?, toJson, Json.record?_written (by simp)]
  simp [List.lookup_cons, Written.orElse, Json.string?_written, Json.word?_written,
    Json.list?_written fun p _ => Pallet.ofWritten?_written p,
    Json.list?_written fun e he => TypeEntry.ofWritten?_written (h e he)]

/-! ## What is written is plain -/

section Plain

variable {depth : Nat}

theorem Json.plain_ofNat {n : Nat} (h : n < 2 ^ 64) : (Json.ofNat n).Plain depth :=
  .integer (by omega) (by omega)

theorem Json.plain_byte (n : UInt8) : (Json.ofNat n.toNat).Plain depth :=
  plain_ofNat (by have := n.toNat_lt; omega)

theorem Json.plain_word (n : UInt32) : (Json.ofNat n.toNat).Plain depth :=
  plain_ofNat (by have := n.toNat_lt; omega)

theorem Json.plain_map {α : Type} {toJson : α → Json} {as : List α}
    (h : ∀ a ∈ as, (toJson a).Plain depth) : (Json.array (as.map toJson)).Plain (depth + 1) := by
  refine .array fun item hitem => ?_
  obtain ⟨a, ha, rfl⟩ := List.mem_map.1 hitem
  exact h a ha

theorem Argument.plain_toJson (arg : Argument) : arg.toJson.Plain (depth + 1) :=
  .object (by simp) (by simp [Json.Plain.string])

theorem Call.plain_toJson (call : Call) : call.toJson.Plain (depth + 3) := by
  refine .object (by simp) ?_
  simp [Json.Plain.string, Json.plain_byte, Json.plain_map fun a _ => Argument.plain_toJson a]

theorem Pallet.plain_toJson (pallet : Pallet) : pallet.toJson.Plain (depth + 5) := by
  refine .object (by simp) ?_
  simp [Json.Plain.string, Json.plain_byte, Json.plain_map fun c _ => Call.plain_toJson c]

theorem TypeEntry.Fits.plain_toJson {entry : TypeEntry} (h : entry.Fits) :
    entry.toJson.Plain (Json.maxDepth - definitionLevel + 1) := by
  refine .object entry.nodup_members fun m hm => ?_
  simp only [List.mem_append, List.mem_cons, List.not_mem_nil, or_false] at hm
  obtain ((rfl | rfl) | hm) | hm := hm
  · exact Json.plain_word entry.id
  · exact .string entry.name
  · split at hm
    · cases hm
    · rw [List.mem_singleton.1 hm]
      exact Json.plain_map fun s _ => .string s
  · cases hentry : entry.definition with
    | none => rw [hentry] at hm; cases hm
    | some definition =>
      rw [hentry] at hm
      rw [List.mem_singleton.1 hm]
      exact (h definition hentry).2

theorem Snapshot.plain_toJson {snapshot : Snapshot} (h : ∀ entry ∈ snapshot.types, entry.Fits) :
    snapshot.toJson.Plain Json.maxDepth := by
  refine .object (by simp) fun m hm => ?_
  simp only [List.mem_cons, List.not_mem_nil, or_false] at hm
  obtain rfl | rfl | rfl | rfl | rfl := hm
  · exact .string snapshot.chain
  · exact .string snapshot.specName
  · exact Json.plain_word snapshot.specVersion
  · exact Json.plain_map fun p _ => p.plain_toJson
  · exact Json.plain_map fun e he => (h e he).plain_toJson

end Plain

/-- A snapshot whose definitions can stand in a document is given back by its text. -/
theorem Snapshot.ofText?_toText {snapshot : Snapshot} (h : ∀ entry ∈ snapshot.types, entry.Fits) :
    ofText? snapshot.toText = some snapshot := by
  rw [ofText?, toText, Json.read?_pretty (plain_toJson h)]
  exact ofWritten?_written h

/-! ## Where definitions fit -/

theorem Json.eq_null_of_value? {depth : Nat} {written : Written}
    (h : written.value? depth = some .null) : written = .null := by
  cases written with
  | null => rfl
  | bool b => cases h
  | number n => obtain ⟨_, -, h⟩ := Option.map_eq_some_iff.1 h; cases h
  | string pieces => obtain ⟨_, -, h⟩ := Option.map_eq_some_iff.1 h; cases h
  | array items =>
    cases depth with
    | zero => cases h
    | succ depth => obtain ⟨_, -, h⟩ := Option.map_eq_some_iff.1 h; cases h
  | object members =>
    cases depth with
    | zero => cases h
    | succ depth => obtain ⟨_, -, h⟩ := Option.map_eq_some_iff.1 h; cases h

/-- An optional value that is there is not `null`. -/
theorem Json.of_optional? {depth : Nat} {written : Written} {value : Json}
    (h : written.optional? (Written.value? depth) = some (some value)) :
    value ≠ .null ∧ written.value? depth = some value := by
  unfold Written.optional? at h
  split at h
  · cases h
  · rename_i hnull
    obtain ⟨found, hfound, heq⟩ := Option.map_eq_some_iff.1 h
    cases heq
    exact ⟨fun heq => hnull (eq_null_of_value? (heq ▸ hfound)), hfound⟩

/-- What is read as a definition can stand in a document, as far as it has no doubles. -/
theorem TypeEntry.fits_of_ofWritten? {written : Written} {entry : TypeEntry}
    (h : ofWritten? written = some entry)
    (hreal : ∀ definition ∈ entry.definition, definition.hasReal = false) : entry.Fits := by
  intro definition hdefinition
  have hplain := hreal definition hdefinition
  rw [ofWritten?] at h
  obtain ⟨record, -, h⟩ := Option.bind_eq_some_iff.1 h
  split at h
  · rename_i member
    obtain ⟨_, -, h⟩ := Option.bind_eq_some_iff.1 h
    obtain ⟨_, -, h⟩ := Option.bind_eq_some_iff.1 h
    obtain ⟨_, -, h⟩ := Option.bind_eq_some_iff.1 h
    obtain ⟨_, -, h⟩ := Option.bind_eq_some_iff.1 h
    obtain ⟨_, -, h⟩ := Option.bind_eq_some_iff.1 h
    obtain ⟨found, hfound, h⟩ := Option.bind_eq_some_iff.1 h
    cases h
    obtain rfl : found = some definition := hdefinition
    cases member with
    | none => cases hfound
    | some member =>
      obtain ⟨hne, hvalue⟩ := Json.of_optional? hfound
      exact ⟨hne, Json.plain_of_value? member hvalue hplain⟩
  · cases h

theorem exists_of_mem_list? {α : Type} {item? : Written → Option α} {written : Written}
    {as : List α} (h : written.list? item? = some as) {a : α} (ha : a ∈ as) :
    ∃ item, item? item = some a := by
  cases written with
  | array items =>
    obtain ⟨item, -, hitem⟩ := exists_of_mem_mapM h ha
    exact ⟨item, hitem⟩
  | _ => cases h

theorem Snapshot.fits_of_ofText? {text : String} {snapshot : Snapshot}
    (h : ofText? text = some snapshot)
    (hreal : ∀ entry ∈ snapshot.types, ∀ definition ∈ entry.definition,
      definition.hasReal = false) : ∀ entry ∈ snapshot.types, entry.Fits := by
  intro entry hentry
  rw [ofText?] at h
  obtain ⟨written, -, h⟩ := Option.bind_eq_some_iff.1 h
  rw [ofWritten?] at h
  obtain ⟨record, -, h⟩ := Option.bind_eq_some_iff.1 h
  split at h
  · rename_i member
    obtain ⟨_, -, h⟩ := Option.bind_eq_some_iff.1 h
    obtain ⟨_, -, h⟩ := Option.bind_eq_some_iff.1 h
    obtain ⟨_, -, h⟩ := Option.bind_eq_some_iff.1 h
    obtain ⟨_, -, h⟩ := Option.bind_eq_some_iff.1 h
    obtain ⟨types, htypes, h⟩ := Option.bind_eq_some_iff.1 h
    cases h
    cases member with
    | none =>
      cases htypes
      cases hentry
    | some member =>
      obtain ⟨item, hitem⟩ := exists_of_mem_list? htypes hentry
      exact TypeEntry.fits_of_ofWritten? hitem (hreal entry hentry)
  · cases h

namespace Shape

variable {depth : Nat}

theorem plain_of_mem_fieldsToPairs {fields : List Field} {position : Nat} {p : String × Json}
    (hp : p ∈ fieldsToPairs position fields) : p.2.Plain depth := by
  induction fields generalizing position with
  | nil => cases hp
  | cons field fields ih =>
    obtain rfl | hp := List.mem_cons.1 hp
    · exact .string field.reference
    · exact ih hp

theorem plain_fieldsToJson (fields : List Field) : (fieldsToJson fields).Plain (depth + 1) := by
  refine .object (Json.Members.nodup_ofPairs _) fun m hm => ?_
  exact plain_of_mem_fieldsToPairs (Json.Members.mem_of_mem_ofPairs hm)

theorem plain_variantToJson (variant : Variant) : (variantToJson variant).Plain (depth + 1) := by
  unfold variantToJson
  split
  · split
    · exact Json.plain_byte _
    · exact .null
  · exact .string _
  · split
    · exact Json.plain_map fun f _ => .string f.reference
    · exact plain_fieldsToJson _

theorem plain_toJson (shape : Shape) : shape.toJson.Plain (depth + 3) := by
  cases shape with
  | record fields =>
    refine .object (List.nodup_singleton _) fun m hm => ?_
    rw [List.mem_singleton.1 hm]
    exact plain_fieldsToJson fields
  | enum variants =>
    refine .object (List.nodup_singleton _) fun m hm => ?_
    rw [List.mem_singleton.1 hm]
    refine .object (Json.Members.nodup_ofPairs _) fun m hm => ?_
    obtain ⟨v, -, rfl⟩ := List.mem_map.1 (Json.Members.mem_of_mem_ofPairs hm)
    exact plain_variantToJson v

theorem toJson_ne_null (shape : Shape) : shape.toJson ≠ .null := by
  cases shape with
  | record fields => exact Json.noConfusion
  | enum variants => exact Json.noConfusion

end Shape

theorem Registry.fits_flatEntry (naming : Naming) (e : Entry) : (flatEntry naming e).Fits := by
  intro definition hdefinition
  have hshape := Option.mem_def.1 hdefinition
  rw [flatEntry] at hshape
  dsimp only at hshape
  obtain ⟨shape, -, rfl⟩ := Option.map_eq_some_iff.1 hshape
  have hlevels : Json.maxDepth - TypeEntry.definitionLevel = 121 + 3 := rfl
  rw [hlevels]
  exact ⟨shape.toJson_ne_null, shape.plain_toJson⟩

/-- The definitions that describe the types of a registry are shallow. -/
theorem Registry.fits_snapshot (registry : Registry) (chain specName : String)
    (specVersion : UInt32) (groups : List CallGroup) :
    ∀ entry ∈ (registry.snapshot chain specName specVersion groups).types, entry.Fits := by
  intro entry hentry
  rw [snapshot] at hentry
  obtain ⟨e, -, rfl⟩ := List.mem_map.1 hentry
  exact fits_flatEntry _ e

end ScaleCalls
