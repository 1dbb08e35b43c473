import ScaleCalls.Proofs.TypeName.Element
import ScaleCalls.Proofs.Types.Describe
import ScaleCalls.Types.Walk

/-!
# The names that a walk can meet

Only finitely many names can turn up under a reference: the canonical names of the
entries, the references in their shapes, the reference itself, and what these texts
spell out inside them. `TypeTable.vocabulary` lists them. It is closed under the
handles of descriptors, and no longer than the depth that a walk is given.
-/

namespace ScaleCalls.TypeTable

variable {snapshot : Snapshot} {reference name child : String}

/-- The texts of an entry that name types. -/
def texts (entry : TypeEntry) : List String :=
  entry.canonicalName :: entry.references.map Text.stripBlanks

/-- All names that can turn up under a reference. -/
def vocabulary (snapshot : Snapshot) (reference : String) : List String :=
  (snapshot.types.flatMap texts ++ [Text.stripBlanks reference]).flatMap TypeName.nested

theorem mem_vocabulary : name ∈ vocabulary snapshot reference ↔
    ∃ text ∈ snapshot.types.flatMap texts ++ [Text.stripBlanks reference],
      name ∈ TypeName.nested text := by
  simp [vocabulary]

theorem mem_vocabulary_of_text {text : String}
    (h : text ∈ snapshot.types.flatMap texts ++ [Text.stripBlanks reference]) :
    text ∈ vocabulary snapshot reference :=
  mem_vocabulary.2 ⟨text, h, TypeName.mem_nested_self text⟩

theorem canonical_eq_ok {text : String} (h : (ofSnapshot snapshot).canonical text = .ok name) :
    (∃ entry ∈ snapshot.types, name = entry.canonicalName) ∨ name = Text.stripBlanks text := by
  unfold canonical at h
  dsimp only at h
  split at h
  · cases h
    exact Or.inr rfl
  · split at h
    · rename_i entry hid
      cases h
      exact Or.inl ⟨entry, mem_of_byId hid, rfl⟩
    · cases h

theorem handle_eq (snapshot : Snapshot) (text : String) :
    (∃ entry ∈ snapshot.types, (ofSnapshot snapshot).handle text = entry.canonicalName) ∨
      (ofSnapshot snapshot).handle text = Text.stripBlanks text := by
  unfold handle
  split
  · rename_i name hname
    exact canonical_eq_ok hname
  · exact Or.inr rfl

theorem handle_mem_vocabulary {text : String}
    (h : Text.stripBlanks text ∈ vocabulary snapshot reference) :
    (ofSnapshot snapshot).handle text ∈ vocabulary snapshot reference := by
  obtain ⟨entry, hentry, heq⟩ | heq := handle_eq snapshot text
  · rw [heq]
    refine mem_vocabulary_of_text (List.mem_append_left _ (List.mem_flatMap.2 ⟨entry, hentry, ?_⟩))
    exact List.mem_cons_self
  · rwa [heq]

theorem handle_reference_mem_vocabulary (snapshot : Snapshot) (reference : String) :
    (ofSnapshot snapshot).handle reference ∈ vocabulary snapshot reference :=
  handle_mem_vocabulary (mem_vocabulary_of_text (by simp))

theorem exists_of_shape {shape : Shape} (h : (ofSnapshot snapshot).shape name = .ok shape) :
    ∃ entry ∈ snapshot.types, entry.references = shape.references := by
  unfold TypeTable.shape at h
  split at h
  · cases h
  · rename_i entry hentry
    refine ⟨entry, mem_of_byName hentry, ?_⟩
    split at h
    · cases h
    · rename_i definition hdef
      split at h
      · rename_i found hfound
        cases h
        simp [TypeEntry.references, hdef, hfound]
      · cases h

/-- The vocabulary is closed under the handles of descriptors. -/
theorem child_mem_vocabulary (hname : name ∈ vocabulary snapshot reference)
    (hchild : child ∈ ((ofSnapshot snapshot).describe name).children) :
    child ∈ vocabulary snapshot reference := by
  obtain ⟨elem, helem, rfl⟩ | ⟨shape, hshape, r, hr, rfl⟩ :=
    exists_of_mem_children_describe hchild
  · -- an element stands inside the same text as the name itself
    obtain ⟨text, htext, hnested⟩ := mem_vocabulary.1 hname
    apply handle_mem_vocabulary
    rw [TypeName.stripBlanks_of_element? helem]
    exact mem_vocabulary.2 ⟨text, htext, TypeName.mem_nested_of_element? hnested helem⟩
  · -- a reference in a shape is a text of the entry that holds the shape
    obtain ⟨entry, hentry, hreferences⟩ := exists_of_shape hshape
    apply handle_mem_vocabulary
    refine mem_vocabulary_of_text (List.mem_append_left _ (List.mem_flatMap.2 ⟨entry, hentry, ?_⟩))
    rw [texts, hreferences]
    exact List.mem_cons_of_mem _ (List.mem_map_of_mem hr)

theorem length_stripBlanks_le (s : String) : (Text.stripBlanks s).length ≤ s.length := by
  rw [← String.length_toList, Text.toList_stripBlanks, ← String.length_toList]
  exact List.length_filter_le _ _

theorem length_flatMap_nested_le (texts : List String) :
    (texts.flatMap TypeName.nested).length ≤ nestingRoom texts := by
  induction texts with
  | nil => exact Nat.le_refl 0
  | cons text texts ih =>
    rw [List.flatMap_cons, List.length_append, nestingRoom]
    exact Nat.add_le_add (TypeName.length_nested_le text) ih

theorem nestingRoom_map_stripBlanks_le (references : List String) :
    nestingRoom (references.map Text.stripBlanks) ≤ nestingRoom references := by
  induction references with
  | nil => exact Nat.le_refl 0
  | cons reference references ih =>
    rw [List.map_cons, nestingRoom, nestingRoom]
    exact Nat.add_le_add (Nat.succ_le_succ (length_stripBlanks_le reference)) ih

theorem nestingRoom_flatMap_texts_le (entries : List TypeEntry) :
    nestingRoom (entries.flatMap texts) ≤
      nestingRoom (entries.flatMap fun e => e.canonicalName :: e.references) := by
  induction entries with
  | nil => exact Nat.le_refl 0
  | cons entry entries ih =>
    rw [List.flatMap_cons, List.flatMap_cons, nestingRoom_append, nestingRoom_append]
    refine Nat.add_le_add ?_ ih
    exact Nat.add_le_add_left (nestingRoom_map_stripBlanks_le entry.references) _

/-- The depth that a walk is given exceeds the number of names that it can meet. -/
theorem length_vocabulary_le (snapshot : Snapshot) (reference : String) :
    (vocabulary snapshot reference).length ≤
      (ofSnapshot snapshot).bound + nestingBound reference := by
  refine Nat.le_trans (length_flatMap_nested_le _) ?_
  rw [nestingRoom_append, bound_ofSnapshot]
  refine Nat.add_le_add (nestingRoom_flatMap_texts_le _) ?_
  simpa [nestingRoom, nestingBound] using length_stripBlanks_le reference

end ScaleCalls.TypeTable
