import Mathlib.Data.List.Induction
import ScaleCalls.Metadata.TypeTable

/-!
# What a type table holds

The table of a snapshot is filled entry by entry. Read backwards: an id leads to the
last entry that has it, and a name to the first entry with a definition that goes by
it, or to the first one at all where none has a definition.

## Main definitions

- `TypeEntry.preferred` — which of several entries a shared name leads to
-/

namespace ScaleCalls

/-- Of several entries under one name the first with a definition, else the first. -/
def TypeEntry.preferred (entries : List TypeEntry) : Option TypeEntry :=
  (entries.find? fun e => e.definition.isSome).or entries.head?

theorem TypeEntry.canonicalName_of_ne {entry : TypeEntry}
    (h : (Text.stripBlanks entry.name).toList ≠ []) :
    entry.canonicalName = Text.stripBlanks entry.name := by
  have hne : Text.stripBlanks entry.name ≠ "" := fun hempty =>
    h (String.toList_eq_nil_iff.2 hempty)
  simp [canonicalName, hne]

theorem nestingRoom_append (front back : List String) :
    nestingRoom (front ++ back) = nestingRoom front + nestingRoom back := by
  induction front with
  | nil => simp [nestingRoom]
  | cons text front ih => rw [List.cons_append, nestingRoom, nestingRoom, ih, Nat.add_assoc]

namespace TypeTable

variable {snapshot : Snapshot} {entry : TypeEntry} {key : String} {id : UInt32}

theorem preferred_concat (entries : List TypeEntry) (entry : TypeEntry) :
    TypeEntry.preferred (entries ++ [entry]) =
      if supersedes entry (TypeEntry.preferred entries) then some entry
      else TypeEntry.preferred entries := by
  rw [TypeEntry.preferred, TypeEntry.preferred, List.find?_append]
  cases hfind : entries.find? fun e => e.definition.isSome with
  | some found =>
    have hsome : found.definition.isSome := by simpa using List.find?_some hfind
    have hnone : found.definition.isNone = false := by
      rw [← Option.not_isSome, hsome]
      rfl
    simp [supersedes, hnone]
  | none =>
    cases entries with
    | nil => cases hdef : entry.definition <;> simp [supersedes, hdef]
    | cons first rest =>
      have hfirst : first.definition = none := by simpa using List.find?_eq_none.1 hfind first
      cases hdef : entry.definition <;> simp [supersedes, hdef, hfirst]

theorem preferred_mem {entries : List TypeEntry} (h : TypeEntry.preferred entries = some entry) :
    entry ∈ entries := by
  rw [TypeEntry.preferred, Option.or_eq_some_iff] at h
  obtain hfind | ⟨-, hhead⟩ := h
  · exact List.mem_of_find?_eq_some hfind
  · exact List.mem_of_head? hhead

theorem preferred_of_find? {entries : List TypeEntry}
    (h : (entries.find? fun e => e.definition.isSome) = some entry) :
    TypeEntry.preferred entries = some entry := by
  rw [TypeEntry.preferred, h]
  rfl

theorem getElem?_addName (entry : TypeEntry) (names : Std.TreeMap String TypeEntry)
    (name key : String) :
    (addName entry names name)[key]? =
      if name = key ∧ supersedes entry names[key]? then some entry else names[key]? := by
  unfold addName
  by_cases hname : name = key
  · subst hname
    by_cases hs : supersedes entry names[name]? <;> simp [hs]
  · by_cases hs : supersedes entry names[name]? <;>
      simp [hs, hname, Std.TreeMap.getElem?_insert]

theorem supersedes_self (entry : TypeEntry) : supersedes entry (some entry) = false := by
  cases h : entry.definition <;> simp [supersedes, h]

theorem getElem?_foldl_addName (entry : TypeEntry) (names : Std.TreeMap String TypeEntry)
    (keys : List String) (key : String) :
    (keys.foldl (addName entry) names)[key]? =
      if key ∈ keys ∧ supersedes entry names[key]? then some entry else names[key]? := by
  induction keys generalizing names with
  | nil => simp
  | cons name rest ih =>
    rw [List.foldl_cons, ih, getElem?_addName]
    by_cases hname : name = key
    · by_cases hs : supersedes entry names[key]?
      · simp [hname, hs, supersedes_self]
      · simp [hname, hs]
    · simp [hname, Ne.symm hname]

theorem byName_ofSnapshot (snapshot : Snapshot) (key : String) :
    (ofSnapshot snapshot).byName[key]? =
      TypeEntry.preferred (snapshot.types.filter fun e => key ∈ keys e) := by
  unfold ofSnapshot
  induction snapshot.types using List.reverseRecOn with
  | nil => simp [TypeEntry.preferred]
  | append_singleton types entry ih =>
    rw [List.foldl_append, List.foldl_cons, List.foldl_nil, add, getElem?_foldl_addName, ih,
      List.filter_append]
    by_cases hkey : key ∈ keys entry
    · simp [hkey, preferred_concat]
    · simp [hkey]

theorem byId_ofSnapshot (snapshot : Snapshot) (id : UInt32) :
    (ofSnapshot snapshot).byId[id]? = snapshot.types.reverse.find? fun e => e.id == id := by
  unfold ofSnapshot
  induction snapshot.types using List.reverseRecOn with
  | nil => simp
  | append_singleton types entry ih =>
    rw [List.foldl_append, List.foldl_cons, List.foldl_nil, add, Std.TreeMap.getElem?_insert, ih]
    by_cases hid : entry.id = id <;> simp [hid]

theorem mem_of_byId (h : (ofSnapshot snapshot).byId[id]? = some entry) :
    entry ∈ snapshot.types := by
  rw [byId_ofSnapshot] at h
  exact List.mem_reverse.1 (List.mem_of_find?_eq_some h)

theorem mem_of_byName (h : (ofSnapshot snapshot).byName[key]? = some entry) :
    entry ∈ snapshot.types := by
  rw [byName_ofSnapshot] at h
  exact (List.mem_filter.1 (preferred_mem h)).1

theorem bound_ofSnapshot (snapshot : Snapshot) :
    (ofSnapshot snapshot).bound =
      nestingRoom (snapshot.types.flatMap fun e => e.canonicalName :: e.references) := by
  unfold ofSnapshot
  induction snapshot.types using List.reverseRecOn with
  | nil => rfl
  | append_singleton types entry ih =>
    rw [List.foldl_append, List.foldl_cons, List.foldl_nil, add, ih, List.flatMap_append,
      nestingRoom_append]
    simp

end TypeTable

end ScaleCalls
