import ScaleCalls.Proofs.Types.Catalog

/-!
# Catalogs that are made by insertion

A catalog that is made by inserting descriptors holds the first descriptor of every name, in
the order in which the names came up, and finds each name at its place. What an insertion
answers and what it does depends on nothing but the names that came before it.

## Main definitions

- `firstOfNames` — the descriptors that bring a new name

## Main statements

- `Catalog.toList_foldl_insert`, `Catalog.Consistent.get?_foldl_insert` — what a run of
  insertions adds
- `Catalog.ofList_inStep` — entries, index and answers after any sequence of insertions
-/

namespace ScaleCalls

/-- Of the descriptors with one name, the first; in order. -/
def firstOfNames (ds : List Descriptor) : List Descriptor :=
  ds.eraseDupsBy fun a b => a.name == b.name

theorem firstOfNames_cons (d : Descriptor) (ds : List Descriptor) :
    firstOfNames (d :: ds) = d :: firstOfNames (ds.filter fun e => e.name != d.name) := by
  rw [firstOfNames, List.eraseDupsBy_cons, firstOfNames]
  simp only [Bool.decide_eq_false, bne]

namespace Catalog

variable {catalog : Catalog} {d : Descriptor} {name : String}

/-- A run of insertions adds the first descriptor of every name that has no entry yet. -/
theorem toList_foldl_insert (catalog : Catalog) (ds : List Descriptor) :
    (ds.foldl insert catalog).toList =
      catalog.toList ++ firstOfNames (ds.filter fun d => !catalog.contains d.name) := by
  induction ds generalizing catalog with
  | nil => exact (List.append_nil _).symm
  | cons d ds ih =>
    rw [List.foldl_cons, ih]
    by_cases h : catalog.contains d.name
    · rw [insert_of_contains h, List.filter_cons_of_neg (by simp [h])]
    · have hrest : (fun e : Descriptor => !(catalog.insert d).contains e.name) =
          fun e => !catalog.contains e.name && e.name != d.name := by
        funext e
        rw [contains_insert, Bool.not_or, Bool.and_comm, bne, Bool.beq_comm]
      rw [toList_insert_of_not_contains h, List.filter_cons_of_pos (by simp [h]),
        firstOfNames_cons, List.filter_filter, hrest, List.append_assoc]
      simp only [Bool.and_comm, List.singleton_append]

namespace Consistent

/-- A descriptor is found by its name, unless an entry of this name was there before. -/
theorem get?_insert (hc : catalog.Consistent) (d : Descriptor) (name : String) :
    (catalog.insert d).get? name =
      (catalog.get? name).or (if d.name = name then some d else none) := by
  by_cases h : catalog.contains d.name
  · rw [insert_of_contains h]
    split
    · rename_i hname
      obtain ⟨e, he⟩ := hc.contains_iff_get?.1 (hname ▸ h)
      rw [he, Option.some_or]
    · rw [Option.or_none]
  · have hmem : ∀ e, (catalog.insert d).get? name = some e ↔
        (e ∈ catalog.toList ∨ e = d) ∧ e.name = name := by
      intro e
      rw [(hc.insert d).get?_eq_some, toList_insert_of_not_contains h, List.mem_append,
        List.mem_singleton]
    by_cases hname : d.name = name
    · have hnone : catalog.get? name = none := Option.eq_none_iff_forall_ne_some.2 fun e he =>
        h (hname ▸ hc.contains_iff_get?.2 ⟨e, he⟩)
      rw [hnone, Option.none_or, if_pos hname]
      exact (hmem d).2 ⟨.inr rfl, hname⟩
    · rw [if_neg hname, Option.or_none]
      refine Option.ext fun e => ?_
      rw [hmem, hc.get?_eq_some]
      refine and_congr_left fun he => or_iff_left ?_
      rintro rfl
      exact hname he

/-- After a run of insertions a name leads to the entry that it had, or else to the first
descriptor of this name. -/
theorem get?_foldl_insert (hc : catalog.Consistent) (ds : List Descriptor) (name : String) :
    (ds.foldl Catalog.insert catalog).get? name =
      (catalog.get? name).or (ds.find? fun d => d.name == name) := by
  induction ds generalizing catalog with
  | nil => exact Option.or_none.symm
  | cons d ds ih =>
    rw [List.foldl_cons, ih (hc.insert d), hc.get?_insert, Option.or_assoc, List.find?_cons]
    by_cases hname : d.name = name
    · simp [hname]
    · rw [if_neg hname, Option.none_or, beq_eq_false_iff_ne.2 hname]

end Consistent

theorem toList_ofList (ds : List Descriptor) : (ofList ds).toList = firstOfNames ds := by
  rw [ofList, toList_foldl_insert, List.filter_eq_self.2 fun d _ => by simp [contains, empty]]
  rfl

theorem get?_ofList (ds : List Descriptor) (name : String) :
    (ofList ds).get? name = ds.find? fun d => d.name == name :=
  consistent_empty.get?_foldl_insert ds name

theorem contains_ofList {ds : List Descriptor} :
    (ofList ds).contains name ↔ name ∈ ds.map Descriptor.name := by
  rw [(Consistent.ofList ds).contains_iff_get?, get?_ofList, ← Option.isSome_iff_exists,
    List.find?_isSome, List.mem_map]
  simp only [beq_iff_eq]

theorem ofList_concat (ds : List Descriptor) (d : Descriptor) :
    ofList (ds ++ [d]) = (ofList ds).insert d := by
  rw [ofList, List.foldl_append]
  rfl

/-- After any sequence of insertions, entries and index are in step. The index leads from
exactly the names that were inserted to the places where they stand, all within the entries.
The entries are the first descriptors of their names in the order of insertion, no name stands
there twice, and a look-up finds the first descriptor of a name. Both counts are those of
these entries. One more insertion answers whether its name is a new one, and otherwise leaves
the catalog as it is. -/
theorem ofList_inStep (ds : List Descriptor) :
    let catalog := ofList ds
    catalog.Consistent ∧
    (∀ name, (∃ i, catalog.index[name]? = some i) ↔ name ∈ ds.map Descriptor.name) ∧
    (∀ (name : String) (i : Nat), catalog.index[name]? = some i → i < catalog.entries.size) ∧
    catalog.toList = firstOfNames ds ∧
    catalog.names.Nodup ∧
    (∀ name, catalog.get? name = ds.find? fun d => d.name == name) ∧
    (∀ name, catalog.contains name ↔ name ∈ ds.map Descriptor.name) ∧
    catalog.size = (firstOfNames ds).length ∧
    catalog.unsupportedCount = (firstOfNames ds).countP Descriptor.isUnsupported ∧
    ∀ d, catalog.insertIfNew d =
      if d.name ∈ ds.map Descriptor.name then (false, catalog) else (true, ofList (ds ++ [d])) := by
  intro catalog
  have hc : catalog.Consistent := Consistent.ofList ds
  refine ⟨hc, fun name => ?_, fun name i hi => ?_, toList_ofList ds, hc.nodup_names,
    get?_ofList ds, fun name => contains_ofList, ?_, ?_, fun d => ?_⟩
  · rw [← contains_ofList, contains, Std.TreeMap.contains_eq_isSome_getElem?,
      Option.isSome_iff_exists]
  · obtain ⟨d, hd, -⟩ := (hc name i).1 hi
    exact (Array.getElem?_eq_some_iff.1 hd).1
  · rw [← toList_ofList]
    rfl
  · rw [← toList_ofList]
    rfl
  · rw [insertIfNew]
    split
    · rename_i hmem
      have hold : catalog.contains d.name := contains_ofList.2 hmem
      rw [hold, insert_of_contains hold]
      rfl
    · rename_i hmem
      have hnew : catalog.contains d.name = false :=
        Bool.not_eq_true _ ▸ fun h => hmem (contains_ofList.1 h)
      rw [hnew, ofList_concat]
      rfl

example : (ofList [⟨"u8", .primitive .u8⟩, ⟨"Weird", .unsupported (.unresolvable "Weird" "")⟩,
    ⟨"u8", .primitive .u16⟩]).toList =
      [⟨"u8", .primitive .u8⟩, ⟨"Weird", .unsupported (.unresolvable "Weird" "")⟩] := by
  decide +kernel

end Catalog

end ScaleCalls
