import Mathlib.Data.List.Nodup
import ScaleCalls.Proofs.Lists
import ScaleCalls.Proofs.Metadata.Reference

/-!
# Which entry a name leads to

An entry goes by its canonical name and by its path, and one table holds both. Of the
entries with a definition that go by a text the first one is found under it, whichever of
the two ways it goes by it. So an entry whose name no other entry has is found under this
name, unless an entry before it has the name as its path.

## Main definitions

- `TypeEntry.IsAt`, `TypeEntry.GoesBy` — the texts that lead to an entry
- `TypeEntry.shapeAs` — the shape that an entry gives to a name

## Main statements

- `TypeTable.shape_of_firstNamed?` — the first entry with a definition is found
- `TypeTable.shape_canonicalName_iff` — the entries that are found under their own names
-/

namespace ScaleCalls

namespace TypeEntry

/-- The text is the path of the entry. -/
def IsAt (entry : TypeEntry) (text : String) : Prop :=
  entry.path ≠ [] ∧ text = joinPath entry.path

instance (entry : TypeEntry) (text : String) : Decidable (entry.IsAt text) :=
  inferInstanceAs (Decidable (_ ∧ _))

/-- The text is the canonical name or the path of the entry. -/
def GoesBy (entry : TypeEntry) (text : String) : Prop :=
  text = entry.canonicalName ∨ entry.IsAt text

instance (entry : TypeEntry) (text : String) : Decidable (entry.GoesBy text) :=
  inferInstanceAs (Decidable (_ ∨ _))

/-- The first entry with a definition that goes by a text. -/
def firstNamed? (entries : List TypeEntry) (text : String) : Option TypeEntry :=
  entries.find? fun e => e.definition.isSome && decide (e.GoesBy text)

/-- The first entry with a definition that has a text as its path. -/
def firstAt? (entries : List TypeEntry) (text : String) : Option TypeEntry :=
  entries.find? fun e => e.definition.isSome && decide (e.IsAt text)

/-- The shape that an entry gives to a name: what its definition describes. -/
def shapeAs (entry : TypeEntry) (name : String) : Except TypeFault Shape :=
  match entry.definition with
  | none => .error (.unresolvable name "no composite definition")
  | some definition => (Shape.ofJson definition).mapError (.malformed name)

variable {front back : List TypeEntry} {entry : TypeEntry}

/-- Where an entry is the only one with a definition and with its name, an entry before it
may still have this name as its path. -/
theorem firstNamed?_canonicalName (hdefined : entry.definition.isSome)
    (hunshared : ∀ other ∈ front ++ back, other.definition.isSome →
      other.canonicalName ≠ entry.canonicalName) :
    firstNamed? (front ++ entry :: back) entry.canonicalName =
      some ((firstAt? front entry.canonicalName).getD entry) := by
  have hfront : firstNamed? front entry.canonicalName = firstAt? front entry.canonicalName := by
    rw [firstNamed?, firstAt?, ← List.head?_filter, ← List.head?_filter]
    refine congrArg List.head? (List.filter_congr fun e he => ?_)
    by_cases hd : e.definition.isSome
    · have hname := hunshared e (List.mem_append_left back he) hd
      simp [hd, GoesBy, Ne.symm hname]
    · simp [hd]
  have hself : entry.GoesBy entry.canonicalName := Or.inl rfl
  rw [firstNamed?, List.find?_append, List.find?_cons_of_pos (by simp [hdefined, hself])]
  rw [firstNamed?] at hfront
  rw [hfront]
  cases firstAt? front entry.canonicalName <;> rfl

end TypeEntry

namespace TypeTable

variable {snapshot : Snapshot} {front back : List TypeEntry} {entry : TypeEntry} {text : String}

theorem mem_keys : text ∈ keys entry ↔ entry.GoesBy text := by
  rw [keys, List.mem_cons, TypeEntry.GoesBy, TypeEntry.IsAt]
  by_cases hpath : entry.path = []
  · simp [hpath]
  · simp [hpath]

theorem shape_of_byName {table : TypeTable} (h : table.byName[text]? = some entry) :
    table.shape text = entry.shapeAs text := by
  rw [shape, h, TypeEntry.shapeAs]
  dsimp only
  cases entry.definition with
  | none => rfl
  | some definition =>
    dsimp only
    cases Shape.ofJson definition with
    | ok shape => rfl
    | error fault => rfl

/-- Of the entries with a definition that go by a text the first one gives its shape. -/
theorem shape_of_firstNamed? (h : TypeEntry.firstNamed? snapshot.types text = some entry) :
    (ofSnapshot snapshot).shape text = entry.shapeAs text := by
  have hfirst : (snapshot.types.filter fun e => text ∈ keys e).find?
      (fun e => e.definition.isSome) = some entry := by
    rw [List.find?_filter, ← h]
    refine congrArg (List.find? · _) (funext fun e => ?_)
    simp [mem_keys, Bool.and_comm]
  apply shape_of_byName
  rw [byName_ofSnapshot, preferred_of_find? hfirst]

theorem handle_idReference (hids : (snapshot.types.map TypeEntry.id).Nodup)
    (hentry : entry ∈ snapshot.types) :
    (ofSnapshot snapshot).handle (idReference entry.id) = entry.canonicalName := by
  apply handle_of_canonical
  apply canonical_idReference
  rw [byId_ofSnapshot]
  refine find?_eq_some_of_unique (List.mem_reverse.2 hentry) (beq_self_eq_true _) ?_
  intro other hother hid
  exact List.inj_on_of_nodup_map hids (List.mem_reverse.1 hother) hentry (beq_iff_eq.1 hid)

/-- The id of an entry leads to its name, and every text to the first entry with a
definition that goes by it. So the name of an entry, which no other entry has, leads to its
own definition exactly when no entry before it has this name as its path, or the first of
those describes the same shape. -/
theorem shape_canonicalName_iff {definition : Json}
    (hids : (snapshot.types.map TypeEntry.id).Nodup)
    (htypes : snapshot.types = front ++ entry :: back)
    (hdefinition : entry.definition = some definition)
    (hunshared : ∀ other ∈ front ++ back, other.definition.isSome →
      other.canonicalName ≠ entry.canonicalName) :
    let table := ofSnapshot snapshot
    let name := entry.canonicalName
    let own := (Shape.ofJson definition).mapError (TypeFault.malformed name)
    table.handle (idReference entry.id) = name ∧
      (∀ text found, TypeEntry.firstNamed? snapshot.types text = some found →
        table.shape text = found.shapeAs text) ∧
      (table.shape name = own ↔
        ∀ rival, TypeEntry.firstAt? front name = some rival → rival.shapeAs name = own) := by
  intro table name own
  have hentry : entry ∈ snapshot.types := by simp [htypes]
  refine ⟨handle_idReference hids hentry, fun text found => shape_of_firstNamed?, ?_⟩
  have hown : entry.shapeAs name = own := by
    rw [TypeEntry.shapeAs, hdefinition]
  have hfound : table.shape name = ((TypeEntry.firstAt? front name).getD entry).shapeAs name := by
    apply shape_of_firstNamed?
    rw [htypes, TypeEntry.firstNamed?_canonicalName (by simp [hdefinition]) hunshared]
  rw [hfound]
  cases TypeEntry.firstAt? front name with
  | none => simpa using hown
  | some rival => simp

/-- A pair of bytes, found under its last segment and under its path. -/
def bytePair : TypeEntry :=
  ⟨0, "Pair", ["pallet", "Pair"], some (.object [("a", .string "u8"), ("b", .string "u8")])⟩

/-- A pair of words, whose name is the path of the pair of bytes. -/
def wordPair : TypeEntry :=
  ⟨1, "pallet::Pair", ["pallet", "Pair"],
    some (.object [("a", .string "u16"), ("b", .string "u16")])⟩

theorem shape_overshadowed :
    let snapshot : Snapshot := { Snapshot.empty with types := [bytePair, wordPair] }
    let table := ofSnapshot snapshot
    let bytes : Shape := .record [⟨some "a", "u8"⟩, ⟨some "b", "u8"⟩]
    let words : Shape := .record [⟨some "a", "u16"⟩, ⟨some "b", "u16"⟩]
    bytePair.canonicalName ≠ wordPair.canonicalName ∧
      wordPair.shapeAs "pallet::Pair" = .ok words ∧
      table.handle (idReference 1) = "pallet::Pair" ∧
      table.shape "pallet::Pair" = .ok bytes ∧ table.shape "pallet::Pair" ≠ .ok words := by
  intro snapshot table bytes words
  have hnames : bytePair.canonicalName ≠ wordPair.canonicalName := by decide +kernel
  have hname : wordPair.canonicalName = "pallet::Pair" := by decide +kernel
  have hunshared : ∀ other ∈ [bytePair] ++ [], other.definition.isSome →
      other.canonicalName ≠ wordPair.canonicalName := by
    intro other hother _
    rw [List.mem_singleton.1 hother]
    exact hnames
  obtain ⟨hhandle, hfirst, hkept⟩ :=
    @shape_canonicalName_iff snapshot [bytePair] [] wordPair _ (by decide) rfl rfl hunshared
  rw [hname] at hhandle hkept
  have hbytes : bytePair.shapeAs "pallet::Pair" = .ok bytes := by rfl
  have hshape : table.shape "pallet::Pair" = .ok bytes := by
    rw [hfirst "pallet::Pair" bytePair (by rfl), hbytes]
  have hwords : wordPair.shapeAs "pallet::Pair" = .ok words := by rfl
  have hdistinct : bytes ≠ words := by decide
  refine ⟨hnames, hwords, hhandle, hshape, fun h => hdistinct ?_⟩
  rw [hshape] at h
  exact Except.ok.inj h

end TypeTable

end ScaleCalls
