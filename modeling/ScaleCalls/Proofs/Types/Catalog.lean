import Mathlib.Data.List.Nodup
import ScaleCalls.Types.Catalog

/-!
# Catalogs that are in step with their index

A catalog keeps its entries in an array and the place of each name in a map. The
two say the same in every catalog that is built by insertion: `Consistent` is that
invariant. Under it a look-up is membership of the list of entries, and inserting
does nothing but add a new name at the end.

## Main definitions

- `Catalog.Consistent` — the index gives each name the place of its entry
- `Catalog.kindOf` — the kind behind a name
-/

namespace ScaleCalls.Catalog

/-- The index leads from each name to the one place where its entry stands. -/
def Consistent (catalog : Catalog) : Prop :=
  ∀ name i, catalog.index[name]? = some i ↔
    ∃ d : Descriptor, catalog.entries[i]? = some d ∧ d.name = name

/-- The kind behind a name. What is not in the catalog has no layout. -/
def kindOf (catalog : Catalog) (name : String) : TypeKind :=
  match catalog.get? name with
  | some d => d.kind
  | none => .unsupported (.unresolvable name "not in catalog")

variable {catalog : Catalog} {d : Descriptor} {name : String}

theorem kindOf_of_get? (h : catalog.get? name = some d) : catalog.kindOf name = d.kind := by
  simp [kindOf, h]

theorem get?_of_kindOf {kind : TypeKind} (h : catalog.kindOf name = kind)
    (hkind : kind.isUnsupported = false) : ∃ d, catalog.get? name = some d ∧ d.kind = kind := by
  unfold kindOf at h
  split at h
  · rename_i d hd
    exact ⟨d, hd, h⟩
  · subst h
    cases hkind

theorem consistent_empty : empty.Consistent := by
  intro name i
  simp [empty]

theorem insert_of_contains (h : catalog.contains d.name) : catalog.insert d = catalog := by
  simp [insert, h]

theorem toList_insert_of_not_contains (h : ¬ catalog.contains d.name) :
    (catalog.insert d).toList = catalog.toList ++ [d] := by
  simp [insert, h, toList]

theorem contains_insert :
    (catalog.insert d).contains name = (d.name == name || catalog.contains name) := by
  by_cases h : catalog.contains d.name
  · rw [insert_of_contains h]
    by_cases hname : d.name = name
    · simp [← hname, h]
    · simp [hname]
  · rw [insert, if_neg h]
    simp [contains, Std.TreeMap.contains_insert, BEq.beq, Std.LawfulEqCmp.compare_eq_iff_eq]

theorem contains_insert_mono (d : Descriptor) (h : catalog.contains name) :
    (catalog.insert d).contains name := by
  rw [contains_insert, h, Bool.or_true]

namespace Consistent

theorem contains_iff (hc : catalog.Consistent) :
    catalog.contains name ↔ ∃ d ∈ catalog.toList, d.name = name := by
  rw [contains, Std.TreeMap.contains_eq_isSome_getElem?, Option.isSome_iff_exists]
  constructor
  · rintro ⟨i, hi⟩
    obtain ⟨d, hd, hname⟩ := (hc name i).1 hi
    exact ⟨d, Array.mem_toList_iff.2 (Array.mem_of_getElem? hd), hname⟩
  · rintro ⟨d, hd, hname⟩
    obtain ⟨i, hi⟩ := Array.mem_iff_getElem?.1 (Array.mem_toList_iff.1 hd)
    exact ⟨i, (hc name i).2 ⟨d, hi, hname⟩⟩

theorem eq_of_name_eq (hc : catalog.Consistent) {i j : Nat} {d e : Descriptor}
    (hi : catalog.entries[i]? = some d) (hj : catalog.entries[j]? = some e)
    (hname : d.name = e.name) : i = j := by
  have hd := (hc e.name i).2 ⟨d, hi, hname⟩
  have he := (hc e.name j).2 ⟨e, hj, rfl⟩
  rw [hd] at he
  exact Option.some.inj he

/-- Looking a name up finds the entry that carries it. -/
theorem get?_eq_some (hc : catalog.Consistent) :
    catalog.get? name = some d ↔ d ∈ catalog.toList ∧ d.name = name := by
  simp only [get?, Option.bind_eq_bind, Option.bind_eq_some_iff]
  constructor
  · rintro ⟨i, hi, hd⟩
    obtain ⟨e, he, hname⟩ := (hc name i).1 hi
    rw [hd] at he
    cases he
    exact ⟨Array.mem_toList_iff.2 (Array.mem_of_getElem? hd), hname⟩
  · rintro ⟨hd, hname⟩
    obtain ⟨i, hi⟩ := Array.mem_iff_getElem?.1 (Array.mem_toList_iff.1 hd)
    exact ⟨i, (hc name i).2 ⟨d, hi, hname⟩, hi⟩

theorem name_of_get? (hc : catalog.Consistent) (h : catalog.get? name = some d) :
    d.name = name :=
  (hc.get?_eq_some.1 h).2

theorem mem_of_get? (hc : catalog.Consistent) (h : catalog.get? name = some d) :
    d ∈ catalog.toList :=
  (hc.get?_eq_some.1 h).1

theorem contains_iff_get? (hc : catalog.Consistent) :
    catalog.contains name ↔ ∃ d, catalog.get? name = some d := by
  rw [hc.contains_iff]
  simp only [hc.get?_eq_some]

theorem mem_names (hc : catalog.Consistent) : name ∈ catalog.names ↔ catalog.contains name := by
  rw [hc.contains_iff]
  simp [names]

theorem nodup_names (hc : catalog.Consistent) : catalog.names.Nodup := by
  rw [List.nodup_iff_injective_getElem]
  rintro ⟨i, hi⟩ ⟨j, hj⟩ hij
  simp only [names, toList, List.length_map, Array.length_toList] at hi hj
  have hname : catalog.entries[i].name = catalog.entries[j].name := by
    simpa [names, toList] using hij
  exact Fin.ext (hc.eq_of_name_eq (Array.getElem?_eq_getElem hi)
    (Array.getElem?_eq_getElem hj) hname)

theorem length_names (catalog : Catalog) : catalog.names.length = catalog.size := by
  simp [names, toList, size]

/-- Insertion keeps the index in step with the entries. -/
theorem insert (hc : catalog.Consistent) (d : Descriptor) : (catalog.insert d).Consistent := by
  by_cases h : catalog.contains d.name
  · rwa [insert_of_contains h]
  · intro name i
    rw [Catalog.insert, if_neg h]
    simp only [Std.TreeMap.getElem?_insert, Std.LawfulEqCmp.compare_eq_iff_eq,
      Array.getElem?_push]
    by_cases hname : d.name = name
    · -- the new name stands at the end, and nowhere else
      subst hname
      have hnew : ∀ e ∈ catalog.entries, e.name ≠ d.name := by
        intro e he hne
        exact h (hc.contains_iff.2 ⟨e, Array.mem_toList_iff.2 he, hne⟩)
      by_cases hi : i = catalog.entries.size
      · simp [hi]
      · simp only [if_true, Option.some.injEq, Ne.symm hi, if_neg hi, false_iff]
        rintro ⟨e, he, hne⟩
        exact hnew e (Array.mem_of_getElem? he) hne
    · by_cases hi : i = catalog.entries.size
      · subst hi
        have hold : catalog.index[name]? ≠ some catalog.entries.size := by
          intro hsome
          obtain ⟨e, he, -⟩ := (hc name _).1 hsome
          simp at he
        simp [hname, hold]
      · simp only [if_neg hname, if_neg hi]
        exact hc name i

theorem ofList (ds : List Descriptor) : (Catalog.ofList ds).Consistent :=
  List.foldlRecOn ds _ consistent_empty fun _ hc d _ => hc.insert d

end Consistent

end ScaleCalls.Catalog
