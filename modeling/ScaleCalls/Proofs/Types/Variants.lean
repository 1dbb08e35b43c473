import Mathlib.Data.List.Nodup
import ScaleCalls.Proofs.Types.Describe

/-!
# The numbers of variants

The variants of an enum are put in order and counted. An explicit index stands for a
place in this order, as the declared position does where there is none; of a variant with
an index and one without, which meet at one place, the one declared first goes first. An
enum is refused when one byte cannot count its variants, when two of them claim one
index, or when the fields of a variant have names only in part.

## Main definitions

- `Shape.Malformed` — enums that are refused
- `Shape.Precedes` — the order of the variants
- `Shape.Renumbered` — a list of variants, put in order and counted

## Main statements

- `Shape.pairwise_precedes` — the sort puts the variants in this order
- `TypeTable.variants_renumbered`
-/

namespace ScaleCalls

namespace Shape

/-- Some fields have names, and some have only a position. -/
def Mixed (fields : List Field) : Prop :=
  (∃ f ∈ fields, f.name ≠ none) ∧ ∃ f ∈ fields, f.name = none

/-- At least two variants carry this explicit index. -/
def Repeats (variants : List Variant) (index : UInt8) : Prop :=
  2 ≤ variants.countP fun v => v.index == some index

/-- Enums that are refused. -/
def Malformed (variants : List Variant) : Prop :=
  variants = [] ∨ 256 < variants.length ∨ (∃ index, Repeats variants index) ∨
    ∃ v ∈ variants, Mixed v.fields

/-- What a fault says about the enum that is refused with it. -/
def FaultOf (variants : List Variant) : ShapeFault → Prop
  | .emptyEnum => variants = []
  | .unrecognized _ => 256 < variants.length
  | .duplicateIndex index => Repeats variants index
  | .mixedFieldNaming name => ∃ v ∈ variants, v.name = name ∧ Mixed v.fields

/-- A variant goes before another one; each stands with its declared position. -/
def Precedes (v w : Variant × Nat) : Prop :=
  match v.1.index, w.1.index with
  | some i, some j => i < j
  | none, none => v.2 < w.2
  | some i, none => i.toNat < w.2 ∨ i.toNat = w.2 ∧ v.2 < w.2
  | none, some j => v.2 < j.toNat ∨ v.2 = j.toNat ∧ v.2 < w.2

/-- The variants of `raw` in order, and counted: each is found once, under its name and
with its fields, whose references have become handles. -/
def Renumbered (table : TypeTable) (raw : List Variant) (out : List ScaleCalls.Variant) : Prop :=
  ∃ order : List (Variant × Nat), order.Perm raw.zipIdx ∧ order.Pairwise Precedes ∧
    out.length = order.length ∧
    ∀ i v position, order[i]? = some (v, position) → ∃ w : ScaleCalls.Variant,
      out[i]? = some w ∧ w.discriminant.toNat = i ∧ w.name = v.name ∧
      w.fields = v.fields.map fun f => ⟨f.name, table.handle f.reference⟩

theorem mixesNaming_iff (fields : List Field) : mixesNaming fields ↔ Mixed fields := by
  simp [mixesNaming, Mixed, Option.isSome_iff_ne_none]

/-! ## Explicit indices -/

theorem firstRepeat?_eq_none {seen is : List UInt8} :
    firstRepeat? seen is = none ↔ is.Nodup ∧ ∀ i ∈ is, i ∉ seen := by
  induction is generalizing seen with
  | nil => simp [firstRepeat?]
  | cons i is ih =>
    rw [firstRepeat?, List.nodup_cons]
    by_cases hseen : i ∈ seen
    · simp [hseen]
    · rw [if_neg (by simpa using hseen), ih]
      simp only [List.mem_cons, not_or, forall_eq_or_imp]
      constructor
      · rintro ⟨hnodup, hnew⟩
        exact ⟨⟨fun hi => (hnew i hi).1 rfl, hnodup⟩, hseen, fun j hj => (hnew j hj).2⟩
      · rintro ⟨⟨hi, hnodup⟩, -, hnew⟩
        exact ⟨hnodup, fun j hj => ⟨fun heq => hi (heq ▸ hj), hnew j hj⟩⟩

theorem count_of_firstRepeat? {seen is : List UInt8} {i : UInt8}
    (h : firstRepeat? seen is = some i) : i ∈ is ∧ (i ∈ seen ∨ 2 ≤ is.count i) := by
  induction is generalizing seen with
  | nil => cases h
  | cons j is ih =>
    rw [firstRepeat?] at h
    split at h
    · rename_i hseen
      cases h
      exact ⟨List.mem_cons_self, Or.inl (by simpa using hseen)⟩
    · obtain ⟨hmem, hagain⟩ := ih h
      refine ⟨List.mem_cons_of_mem _ hmem, ?_⟩
      rw [List.mem_cons] at hagain
      rcases hagain with (rfl | hseen) | hcount
      · -- met just now, and once more in the rest
        have := List.count_pos_iff.2 hmem
        rw [List.count_cons_self]
        exact Or.inr (by omega)
      · exact Or.inl hseen
      · exact Or.inr (Nat.le_trans hcount List.count_le_count_cons)

theorem repeats_iff {variants : List Variant} {index : UInt8} :
    Repeats variants index ↔ 2 ≤ (variants.filterMap Variant.index).count index := by
  rw [List.count_filterMap, Repeats]

theorem nodup_indices_iff {variants : List Variant} :
    (variants.filterMap Variant.index).Nodup ↔ ∀ index, ¬ Repeats variants index := by
  rw [List.nodup_iff_count_le_one]
  refine forall_congr' fun index => ?_
  rw [repeats_iff]
  omega

/-! ## The order -/

theorem orderKey_of_some {v : Variant × Nat} {index : UInt8} (h : v.1.index = some index) :
    orderKey v = index.toNat := by
  rw [orderKey, h]
  rfl

theorem orderKey_of_none {v : Variant × Nat} (h : v.1.index = none) : orderKey v = v.2 := by
  rw [orderKey, h]
  rfl

theorem precedes_of_orderKey {v w : Variant × Nat} (hle : orderKey v ≤ orderKey w)
    (htie : orderKey w ≤ orderKey v →
      v.2 < w.2 ∧ ∀ index, v.1.index = some index → w.1.index ≠ some index) :
    Precedes v w := by
  unfold Precedes
  cases hv : v.1.index with
  | none =>
    cases hw : w.1.index with
    | none =>
      rw [orderKey_of_none hv, orderKey_of_none hw] at hle htie
      rcases Nat.lt_or_eq_of_le hle with hlt | heq
      · exact hlt
      · exact (htie heq.ge).1
    | some j =>
      rw [orderKey_of_none hv, orderKey_of_some hw] at hle htie
      rcases Nat.lt_or_eq_of_le hle with hlt | heq
      · exact Or.inl hlt
      · exact Or.inr ⟨heq, (htie heq.ge).1⟩
  | some i =>
    cases hw : w.1.index with
    | none =>
      rw [orderKey_of_some hv, orderKey_of_none hw] at hle htie
      rcases Nat.lt_or_eq_of_le hle with hlt | heq
      · exact Or.inl hlt
      · exact Or.inr ⟨heq, (htie heq.ge).1⟩
    | some j =>
      rw [orderKey_of_some hv, orderKey_of_some hw] at hle htie
      -- equal indices would be an index that is claimed twice
      rcases Nat.lt_or_eq_of_le hle with hlt | heq
      · exact UInt8.lt_iff_toNat_lt.2 hlt
      · obtain rfl := UInt8.toNat_inj.1 heq
        exact absurd hw ((htie le_rfl).2 i hv)

theorem pairwise_places (variants : List Variant) :
    variants.zipIdx.Pairwise fun v w => v.2 < w.2 := by
  rw [← List.pairwise_map, List.zipIdx_map_snd]
  exact List.pairwise_lt_range'

/-- Variants without an explicit index stay as they are declared. -/
theorem ordered_of_index_eq_none {variants : List Variant} (h : ∀ v ∈ variants, v.index = none) :
    ordered variants = variants := by
  have hsorted : variants.zipIdx.Pairwise fun v w => decide (orderKey v ≤ orderKey w) := by
    refine (pairwise_places variants).imp_of_mem fun {v w} hv hw hlt => ?_
    rw [orderKey_of_none (h _ (List.fst_mem_of_mem_zipIdx hv)),
      orderKey_of_none (h _ (List.fst_mem_of_mem_zipIdx hw))]
    exact decide_eq_true (Nat.le_of_lt hlt)
  rw [ordered, List.mergeSort_of_pairwise hsorted, List.zipIdx_map_fst]

/-- Where no index is claimed twice, the sort puts the variants in their order. -/
theorem pairwise_precedes {variants : List Variant}
    (h : (variants.filterMap Variant.index).Nodup) :
    (variants.zipIdx.mergeSort fun v w => orderKey v ≤ orderKey w).Pairwise Precedes := by
  have hindices : variants.zipIdx.Pairwise fun v w =>
      ∀ i, v.1.index = some i → w.1.index ≠ some i := by
    have hraw := List.pairwise_filterMap.1 h
    rw [← List.zipIdx_map_fst 0 variants, List.pairwise_map] at hraw
    exact hraw.imp fun hvw i hv hw => hvw i hv i hw rfl
  have htrans : ∀ u v w : Variant × Nat, decide (orderKey u ≤ orderKey v) →
      decide (orderKey v ≤ orderKey w) → decide (orderKey u ≤ orderKey w) := by
    simp only [decide_eq_true_eq]
    omega
  have htotal : ∀ v w : Variant × Nat,
      decide (orderKey v ≤ orderKey w) || decide (orderKey w ≤ orderKey v) := by
    simp only [Bool.or_eq_true, decide_eq_true_eq]
    omega
  have hsorted := pairwise_mergeSort_stable htrans htotal ((pairwise_places variants).and hindices)
  refine hsorted.imp fun {v w} hvw => ?_
  simp only [decide_eq_true_eq] at hvw
  exact precedes_of_orderKey hvw.1 hvw.2

end Shape

namespace TypeTable

variable {table : TypeTable} {raw : List Shape.Variant}

theorem variant_cases (table : TypeTable) (numbered : Shape.Variant × Nat) :
    (Shape.Mixed numbered.1.fields ∧
        table.variant numbered = .error (.mixedFieldNaming numbered.1.name)) ∨
      (¬ Shape.Mixed numbered.1.fields ∧ table.variant numbered = .ok (table.numbered numbered)) := by
  rw [← Shape.mixesNaming_iff, variant]
  by_cases hmixes : Shape.mixesNaming numbered.1.fields
  · exact Or.inl ⟨hmixes, if_pos hmixes⟩
  · exact Or.inr ⟨hmixes, if_neg hmixes⟩

/-- Three checks may refuse an enum as a whole; after them every variant is described in
its place. -/
theorem variants_cases (table : TypeTable) (raw : List Shape.Variant) :
    (raw = [] ∧ table.variants raw = .error .emptyEnum) ∨
      (256 < raw.length ∧ ∃ text, table.variants raw = .error (.unrecognized text)) ∨
      (∃ index, Shape.Repeats raw index ∧ table.variants raw = .error (.duplicateIndex index)) ∨
      (raw ≠ [] ∧ raw.length ≤ 256 ∧ (∀ index, ¬ Shape.Repeats raw index) ∧
        table.variants raw = (Shape.ordered raw).zipIdx.mapM table.variant) := by
  by_cases hempty : raw = []
  · subst hempty
    exact Or.inl ⟨rfl, rfl⟩
  right
  rw [variants, if_neg (by simpa using hempty)]
  by_cases hlength : maxVariants < raw.length
  · exact Or.inl ⟨hlength, _, if_pos hlength⟩
  right
  rw [if_neg hlength]
  cases hrepeat : firstRepeat? [] (raw.filterMap Shape.Variant.index) with
  | some index =>
    obtain ⟨-, hcount⟩ := Shape.count_of_firstRepeat? hrepeat
    exact Or.inl ⟨index, Shape.repeats_iff.2 (hcount.resolve_left List.not_mem_nil), rfl⟩
  | none =>
    have hnodup := (Shape.firstRepeat?_eq_none.1 hrepeat).1
    exact Or.inr ⟨hempty, Nat.le_of_not_lt hlength, Shape.nodup_indices_iff.1 hnodup, rfl⟩

/-- A fault tells the truth about the enum. -/
theorem faultOf_of_variants {fault : ShapeFault} (h : table.variants raw = .error fault) :
    Shape.FaultOf raw fault := by
  rcases variants_cases table raw with
    ⟨hempty, heq⟩ | ⟨hlength, text, heq⟩ | ⟨index, hindex, heq⟩ | ⟨-, -, -, heq⟩
  · obtain rfl := Except.error.inj (heq.symm.trans h)
    exact hempty
  · obtain rfl := Except.error.inj (heq.symm.trans h)
    exact hlength
  · obtain rfl := Except.error.inj (heq.symm.trans h)
    exact hindex
  · obtain ⟨⟨v, i⟩, hv, hfault⟩ := exists_of_mapM_eq_error (heq.symm.trans h)
    have hmem : v ∈ raw := (Shape.ordered_perm raw).mem_iff.1 (List.fst_mem_of_mem_zipIdx hv)
    rcases variant_cases table (v, i) with ⟨hmixed, hrefused⟩ | ⟨-, haccepted⟩
    · obtain rfl := Except.error.inj (hrefused.symm.trans hfault)
      exact ⟨v, hmem, rfl, hmixed⟩
    · cases haccepted.symm.trans hfault

theorem malformed_of_faultOf {fault : ShapeFault} (h : Shape.FaultOf raw fault) :
    Shape.Malformed raw := by
  cases fault with
  | emptyEnum => exact Or.inl h
  | unrecognized text => exact Or.inr (Or.inl h)
  | duplicateIndex index => exact Or.inr (Or.inr (Or.inl ⟨index, h⟩))
  | mixedFieldNaming name =>
    obtain ⟨v, hv, -, hmixed⟩ := h
    exact Or.inr (Or.inr (Or.inr ⟨v, hv, hmixed⟩))

theorem not_malformed_of_variants {out : List Variant} (h : table.variants raw = .ok out) :
    ¬ Shape.Malformed raw := by
  rcases variants_cases table raw with
    ⟨-, heq⟩ | ⟨-, text, heq⟩ | ⟨index, -, heq⟩ | ⟨hne, hlength, hindices, heq⟩
  · cases heq.symm.trans h
  · cases heq.symm.trans h
  · cases heq.symm.trans h
  · rintro (hempty | hlong | ⟨index, hindex⟩ | ⟨v, hv, hmixed⟩)
    · exact hne hempty
    · exact Nat.not_lt_of_le hlength hlong
    · exact hindices index hindex
    · -- every variant is accepted at the place where the order puts it
      obtain ⟨i, hi⟩ := List.getElem?_of_mem ((Shape.ordered_perm raw).mem_iff.2 hv)
      have hnumbered : (v, i) ∈ (Shape.ordered raw).zipIdx := List.mem_zipIdx_iff_getElem?.2 hi
      obtain ⟨_, -, hok⟩ := exists_of_mem_forall₂ (mapM_eq_ok.1 (heq.symm.trans h)) hnumbered
      rcases variant_cases table (v, i) with ⟨-, hrefused⟩ | ⟨hclear, -⟩
      · cases hrefused.symm.trans hok
      · exact hclear hmixed

theorem renumbered_of_variants {out : List Variant} (h : table.variants raw = .ok out) :
    Shape.Renumbered table raw out := by
  have hindices : (raw.filterMap Shape.Variant.index).Nodup := by
    rw [Shape.nodup_indices_iff]
    exact fun index hindex =>
      not_malformed_of_variants h (Or.inr (Or.inr (Or.inl ⟨index, hindex⟩)))
  obtain ⟨hlength, rfl⟩ := variants_eq_ok h
  refine ⟨_, List.mergeSort_perm _ _, Shape.pairwise_precedes hindices,
    by simp [Shape.ordered], ?_⟩
  intro i v position hv
  have hget : (Shape.ordered raw)[i]? = some v := by
    rw [Shape.ordered, List.getElem?_map, hv]
    rfl
  have hi : i < 256 := by
    have hlt := (List.getElem?_eq_some_iff.1 hget).1
    rw [(Shape.ordered_perm raw).length_eq] at hlt
    exact Nat.lt_of_lt_of_le hlt hlength
  refine ⟨table.numbered (v, i), ?_, ?_, rfl, rfl⟩
  · rw [List.getElem?_map, List.getElem?_zipIdx, hget, Nat.zero_add]
    rfl
  · simp [numbered, Nat.mod_eq_of_lt hi]

/-- Exactly the malformed enums are refused, each with a fault that holds of it; the
variants of any other come out in order and counted. -/
theorem variants_renumbered (table : TypeTable) (raw : List Shape.Variant) :
    ((∃ fault, table.variants raw = .error fault) ↔ Shape.Malformed raw) ∧
      (∀ fault, table.variants raw = .error fault → Shape.FaultOf raw fault) ∧
      ∀ out, table.variants raw = .ok out → Shape.Renumbered table raw out := by
  refine ⟨⟨?_, fun hmalformed => ?_⟩, fun _ => faultOf_of_variants, fun _ => renumbered_of_variants⟩
  · rintro ⟨fault, hfault⟩
    exact malformed_of_faultOf (faultOf_of_variants hfault)
  · cases h : table.variants raw with
    | error fault => exact ⟨fault, rfl⟩
    | ok out => exact absurd hmalformed (not_malformed_of_variants h)

/-- The index of `tied` is the position of `plain`, which is declared behind it. -/
theorem variants_renumbered_tied :
    let table := ofSnapshot Snapshot.empty
    let raw : List Shape.Variant :=
      [⟨"tied", some 1, []⟩, ⟨"plain", none, [⟨none, " u8"⟩]⟩, ⟨"low", some 0, []⟩]
    let out : List Variant := [⟨"low", 0, []⟩, ⟨"tied", 1, []⟩, ⟨"plain", 2, [⟨none, "u8"⟩]⟩]
    table.variants raw = .ok out ∧ Shape.Renumbered table raw out := by
  intro table raw out
  have hhandle : table.handle " u8" = "u8" := by decide +kernel
  have hordered : Shape.ordered raw =
      [⟨"low", some 0, []⟩, ⟨"tied", some 1, []⟩, ⟨"plain", none, [⟨none, " u8"⟩]⟩] := by
    simp [raw, Shape.ordered, List.mergeSort, Shape.orderKey,
      List.MergeSort.Internal.splitInTwo_fst, List.MergeSort.Internal.splitInTwo_snd]
  have h : table.variants raw = .ok out := by
    rw [variants, if_neg (by decide), if_neg (by decide), hordered]
    simp only [out, ← hhandle]
    rfl
  exact ⟨h, (variants_renumbered table raw).2.2 out h⟩

end TypeTable

end ScaleCalls
