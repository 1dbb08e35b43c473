import ScaleCalls.Proofs.Scale.Scalar
import ScaleCalls.Proofs.Types.Catalog

/-!
# Values of the types of a catalog

What is encoded, apart from how generated code holds it: a tree of values that is
read along the handles of a catalog. Its bytes are put together from the bytes of its
parts, as the kind of its type says.

## Main definitions

- `Datum` — the values, `Datum.Typed` — the kinds that they may have
- `Datum.scale`, `Datum.scaleAll` — the bytes of a value, and of several in a row

## Main statements

- `Datum.scale_append_inj`, `Datum.scaleAll_append_inj` — values are told apart by
  their bytes, and from whatever follows them
-/

namespace ScaleCalls

/-- A value of some type. -/
inductive Datum where
  | scalar (s : Scalar)
  /-- The elements of a vector or of an array. -/
  | sequence (items : List Datum)
  | none
  | some (value : Datum)
  /-- The fields of a struct, in order. -/
  | record (parts : List Datum)
  /-- A variant by its position, and its fields in order. -/
  | variant (position : Nat) (parts : List Datum)
  deriving Repr

namespace Datum

mutual

/-- The bytes of a value. -/
def scale (catalog : Catalog) : TypeKind → Datum → Bytes
  | kind, .scalar s => s.scale kind
  | .vector elem, .sequence items | .boundedVector elem _, .sequence items =>
    Scale.compactOf items.length ++ scaleAll catalog (List.replicate items.length elem) items
  | .fixedArray elem _, .sequence items =>
    scaleAll catalog (List.replicate items.length elem) items
  | .option _, .none => [0]
  | .option elem, .some value => 1 :: scale catalog (catalog.kindOf elem) value
  | .record fields, .record parts => scaleAll catalog (fields.map Field.handle) parts
  | .enum variants, .variant position parts =>
    match variants[position]? with
    | .some v => v.discriminant :: scaleAll catalog (v.fields.map Field.handle) parts
    | .none => []
  | _, _ => []

/-- The bytes of several values, one after the other. -/
def scaleAll (catalog : Catalog) : List String → List Datum → Bytes
  | handle :: handles, d :: ds =>
    scale catalog (catalog.kindOf handle) d ++ scaleAll catalog handles ds
  | _, _ => []

end

mutual

/-- A value is of some kind: its parts are of the kinds behind the handles, and no
count is beyond what the kind allows and a machine can hold. -/
def Typed (catalog : Catalog) : TypeKind → Datum → Prop
  | kind, .scalar s => s.Typed kind
  | .vector elem, .sequence items =>
    Addressable items.length ∧ AllTyped catalog (List.replicate items.length elem) items
  | .boundedVector elem bound, .sequence items =>
    Addressable items.length ∧ (∀ limit ∈ bound, items.length ≤ limit) ∧
      AllTyped catalog (List.replicate items.length elem) items
  | .fixedArray elem len, .sequence items =>
    items.length = len ∧ AllTyped catalog (List.replicate items.length elem) items
  | .option _, .none => True
  | .option elem, .some value => Typed catalog (catalog.kindOf elem) value
  | .record fields, .record parts => AllTyped catalog (fields.map Field.handle) parts
  | .enum variants, .variant position parts =>
    ∃ v, variants[position]? = .some v ∧ AllTyped catalog (v.fields.map Field.handle) parts
  | _, _ => False

/-- Several values are of the kinds behind as many handles. -/
def AllTyped (catalog : Catalog) : List String → List Datum → Prop
  | [], [] => True
  | handle :: handles, d :: ds =>
    Typed catalog (catalog.kindOf handle) d ∧ AllTyped catalog handles ds
  | _, _ => False

end

end Datum

/-- The variants of every enum are marked by their positions. -/
def Catalog.Numbered (catalog : Catalog) : Prop :=
  ∀ name variants, catalog.kindOf name = .enum variants →
    ∀ (i : Nat) (v : Variant), variants[i]? = some v → v.discriminant.toNat = i

namespace Datum

variable {catalog : Catalog} {elem : String}

theorem counted_append_inj {xs ys : List Datum} (hx : Addressable xs.length)
    (hy : Addressable ys.length) {s t : Bytes}
    (h : Scale.compactOf xs.length ++ scaleAll catalog (List.replicate xs.length elem) xs ++ s =
      Scale.compactOf ys.length ++ scaleAll catalog (List.replicate ys.length elem) ys ++ t) :
    xs.length = ys.length ∧
      scaleAll catalog (List.replicate xs.length elem) xs ++ s =
        scaleAll catalog (List.replicate ys.length elem) ys ++ t := by
  rw [← Scale.compact_eq_compactOf, ← Scale.compact_eq_compactOf, List.append_assoc,
    List.append_assoc] at h
  exact Scale.compact_append_inj hx.lt_bound hy.lt_bound h

mutual

/-- Values behind one handle have different bytes, and none has the front of another's. -/
theorem scale_append_inj (hn : catalog.Numbered) (name : String) (a : Datum) {b : Datum}
    {s t : Bytes} (ha : a.Typed catalog (catalog.kindOf name))
    (hb : b.Typed catalog (catalog.kindOf name))
    (h : a.scale catalog (catalog.kindOf name) ++ s = b.scale catalog (catalog.kindOf name) ++ t) :
    a = b ∧ s = t := by
  have hnumbered := hn name
  generalize catalog.kindOf name = kind at *
  cases a with
  | scalar x =>
    cases b with
    | scalar y =>
      obtain ⟨rfl, hrest⟩ := Scalar.Typed.scale_append_inj ha hb h
      exact ⟨rfl, hrest⟩
    | _ => cases ha <;> cases hb
  | sequence xs =>
    cases kind with
    | vector elem =>
      cases b with
      | sequence ys =>
        obtain ⟨hlength, hitems⟩ := ha
        obtain ⟨hlength', hitems'⟩ := hb
        obtain ⟨hcount, hparts⟩ := counted_append_inj hlength hlength' h
        rw [← hcount] at hitems' hparts
        obtain ⟨rfl, hrest⟩ := scaleAll_append_inj hn xs hitems hitems' hparts
        exact ⟨rfl, hrest⟩
      | _ => cases hb
    | boundedVector elem bound =>
      cases b with
      | sequence ys =>
        obtain ⟨hlength, -, hitems⟩ := ha
        obtain ⟨hlength', -, hitems'⟩ := hb
        obtain ⟨hcount, hparts⟩ := counted_append_inj hlength hlength' h
        rw [← hcount] at hitems' hparts
        obtain ⟨rfl, hrest⟩ := scaleAll_append_inj hn xs hitems hitems' hparts
        exact ⟨rfl, hrest⟩
      | _ => cases hb
    | fixedArray elem len =>
      cases b with
      | sequence ys =>
        obtain ⟨hlength, hitems⟩ := ha
        obtain ⟨hlength', hitems'⟩ := hb
        simp only [scale] at h
        rw [hlength'] at hitems' h
        rw [hlength] at hitems h
        obtain ⟨rfl, hrest⟩ := scaleAll_append_inj hn xs hitems hitems' h
        exact ⟨rfl, hrest⟩
      | _ => cases hb
    | _ => cases ha
  | none =>
    cases kind with
    | option elem =>
      cases b with
      | none => exact ⟨rfl, (List.cons.inj h).2⟩
      | some y => cases (List.cons.inj h).1
      | _ => cases hb
    | _ => cases ha
  | some x =>
    cases kind with
    | option elem =>
      cases b with
      | some y =>
        obtain ⟨rfl, hrest⟩ := scale_append_inj hn elem x ha hb (List.cons.inj h).2
        exact ⟨rfl, hrest⟩
      | none => cases (List.cons.inj h).1
      | _ => cases hb
    | _ => cases ha
  | record xs =>
    cases kind with
    | record fields =>
      cases b with
      | record ys =>
        obtain ⟨rfl, hrest⟩ := scaleAll_append_inj hn xs ha hb h
        exact ⟨rfl, hrest⟩
      | _ => cases hb
    | _ => cases ha
  | variant i xs =>
    cases kind with
    | enum variants =>
      cases b with
      | variant j ys =>
        obtain ⟨v, hv, hparts⟩ := ha
        obtain ⟨w, hw, hparts'⟩ := hb
        simp only [scale, hv, hw, List.cons_append] at h
        obtain ⟨htag, htail⟩ := List.cons.inj h
        -- the byte is the position, so both values are of the same variant
        have hi := hnumbered variants rfl i v hv
        rw [htag, hnumbered variants rfl j w hw] at hi
        subst hi
        rw [hv] at hw
        cases hw
        obtain ⟨rfl, hrest⟩ := scaleAll_append_inj hn xs hparts hparts' htail
        exact ⟨rfl, hrest⟩
      | _ => cases hb
    | _ => cases ha
termination_by sizeOf a

/-- Lists of values behind the same handles have different bytes. -/
theorem scaleAll_append_inj (hn : catalog.Numbered) (as : List Datum) {bs : List Datum}
    {handles : List String} {s t : Bytes} (ha : AllTyped catalog handles as)
    (hb : AllTyped catalog handles bs)
    (h : scaleAll catalog handles as ++ s = scaleAll catalog handles bs ++ t) :
    as = bs ∧ s = t := by
  match handles, as, bs, ha, hb with
  | [], [], [], _, _ => exact ⟨rfl, h⟩
  | handle :: handles, a :: as, b :: bs, ⟨hfirst, hrest⟩, ⟨hfirst', hrest'⟩ =>
    simp only [scaleAll, List.append_assoc] at h
    obtain ⟨rfl, htail⟩ := scale_append_inj hn handle a hfirst hfirst' h
    obtain ⟨rfl, hst⟩ := scaleAll_append_inj hn as hrest hrest' htail
    exact ⟨rfl, hst⟩
termination_by sizeOf as

end

end Datum

end ScaleCalls
