import Mathlib.Data.List.Forall2
import ScaleCalls.Proofs.Solidity.TypeNames
import ScaleCalls.Proofs.Types.Agree

/-!
# Identifiers are stable and never shared

Naming a container asks for the identifier of its element first, and while that is found, both
the table of identifiers and the scope change. This module has a call as a machine that keeps
the containers around the type that is asked for, and looks each of them up a second time when
the identifier of its element is there.

Where no chain of containers comes back to a type, a call ends, and the second look never finds
anything: the table only changes for types further down the chain. So a call gives what
`TypeNames.name` gives. Whatever is in the table stays there, so what a call returns is the
entry of its type in the table of all calls, and no two entries are the same.

## Main definitions

- `Naming` — a call on its way, with one step `Naming.next?`
- `TypeNames.CallEnds` — a call ends with this result
- `TypeNames.identifiers` — what several calls return, one after the other

## Main statements

- `TypeNames.steps_nameWithin` — the steps of a call along a chain that ends
- `TypeNames.get?_nameAll_of_get?` — what is in the table stays there
- `TypeNames.identifiers_stable_and_apart` — calls in any order, with repetitions
-/

namespace ScaleCalls.Solidity

/-- A call on its way, with the identifiers given so far and the containers around the type in
question, the innermost first. -/
inductive Naming where
  /-- The identifier of a type is asked for. -/
  | asked (names : TypeNames) (around : List Descriptor) (d : Descriptor)
  /-- The word for the element of the innermost container is there. A type that is no
  container has nothing to wait for, and the word plays no role. -/
  | given (names : TypeNames) (around : List Descriptor) (word : String)

/-- One step of a call. It stops with an identifier when no type around it is left. -/
def Naming.next? (catalog : Catalog) : Naming → Option Naming
  | .asked names around d =>
    match names.get? d.name with
    | some ident => some (.given names around ident)
    | none =>
      match namedElement? catalog d with
      | none => some (.given names (d :: around) (plainWord catalog d))
      | some e => some (.asked names (d :: around) e)
  | .given _ [] _ => none
  | .given names (d :: around) word =>
    match names.get? d.name with
    | some ident => some (.given names around ident)
    | none =>
      let (ident, names) := names.assign d.name (baseName d word)
      some (.given names around ident)

/-- One call leads to another by a step. -/
def Naming.Step (catalog : Catalog) (now next : Naming) : Prop := now.next? catalog = some next

theorem Naming.rightUnique_step (catalog : Catalog) : Relator.RightUnique (Naming.Step catalog) :=
  fun _ _ _ h h' => Option.some.inj (h.symm.trans h')

namespace TypeNames

/-- The call for a type cannot go on for ever, and it stops with this identifier and these
names. -/
structure CallEnds (catalog : Catalog) (names : TypeNames) (d : Descriptor)
    (result : String × TypeNames) : Prop where
  acc : Acc (fun next now => Naming.Step catalog now next) (.asked names [] d)
  steps : Relation.ReflTransGen (Naming.Step catalog) (.asked names [] d)
    (.given result.2 [] result.1)

/-- What calls for some types return, one after the other. -/
def identifiers (catalog : Catalog) : TypeNames → List Descriptor → List String
  | _, [] => []
  | names, d :: ds => (names.name catalog d).1 :: identifiers catalog (names.name catalog d).2 ds

variable {catalog : Catalog} {names : TypeNames} {d e : Descriptor} {ident other : String}
  {fuel k : Nat}

/-! ## A call ends -/

/-- What is named before a container is its element. -/
theorem holds_of_namedElement? (hc : catalog.Consistent) (hget : catalog.get? d.name = some d)
    (he : namedElement? catalog d = some e) :
    catalog.Holds d.name e.name ∧ catalog.get? e.name = some e := by
  obtain ⟨elem, helem, hgetElem, -⟩ := namedElement?_eq_some.1 he
  obtain rfl := hc.name_of_get? hgetElem
  exact ⟨by rw [Catalog.Holds, Catalog.kindOf_of_get? hget, helem], hgetElem⟩

/-- Naming a type leaves all types alone that are not on its chain of elements. -/
theorem get?_nameWithin_of_not_chain (hc : catalog.Consistent)
    (hget : catalog.get? d.name = some d)
    (hother : ¬ Relation.ReflTransGen catalog.Holds d.name other) :
    (nameWithin catalog fuel names d).2.get? other = names.get? other := by
  induction fuel generalizing names d with
  | zero => rfl
  | succ fuel ih =>
    have hassign (names : TypeNames) (base : String) :
        (names.assign d.name base).2.get? other = names.get? other := by
      rw [get?_assign, if_neg fun heq : d.name = other => hother (heq ▸ .refl)]
    rw [nameWithin_succ]
    split
    · rfl
    · split
      · exact hassign _ _
      · rename_i e he
        obtain ⟨hholds, hgetElem⟩ := holds_of_namedElement? hc hget he
        exact (hassign _ _).trans (ih hgetElem fun h => hother (.head hholds h))

/-- The second look finds nothing, and the type gets its identifier. -/
theorem step_given (h : names.get? d.name = none) (around : List Descriptor) (word : String) :
    Naming.Step catalog (.given names (d :: around) word)
      (.given (names.assign d.name (baseName d word)).2 around
        (names.assign d.name (baseName d word)).1) := by
  simp only [Naming.Step, Naming.next?, h]

/-- Along a chain that ends and does not come back, the steps of a call lead to what naming
along the chain gives. -/
theorem steps_nameWithin (hc : catalog.Consistent)
    (hcycle : ∀ name, ¬ Relation.TransGen catalog.Holds name name) (names : TypeNames)
    (around : List Descriptor) (hget : catalog.get? d.name = some d)
    (hends : catalog.EndsWithin k d.name) :
    Relation.ReflTransGen (Naming.Step catalog) (.asked names around d)
      (.given (nameWithin catalog (k + 1) names d).2 around
        (nameWithin catalog (k + 1) names d).1) := by
  induction k using Nat.strong_induction_on generalizing names around d with
  | _ k ih =>
    rw [nameWithin_succ]
    cases hknown : names.get? d.name with
    | some ident =>
      refine .single ?_
      simp only [Naming.Step, Naming.next?, hknown]
    | none =>
      dsimp only
      cases he : namedElement? catalog d with
      | none =>
        refine .head ?_ (.single (step_given hknown around _))
        simp only [Naming.Step, Naming.next?, hknown, he]
      | some e =>
        obtain ⟨hholds, hgetElem⟩ := holds_of_namedElement? hc hget he
        obtain ⟨m, rfl, hm⟩ := hends.of_holds hholds
        have hinner := ih m (Nat.lt_succ_self m) names (d :: around) hgetElem hm
        -- the element does not lead back to its container, which is still without identifier
        have hstill : (nameWithin catalog (m + 1) names e).2.get? d.name = none :=
          (get?_nameWithin_of_not_chain hc hgetElem fun hback =>
            hcycle d.name (.head' hholds hback)).trans hknown
        refine .head ?_ (hinner.tail (step_given hstill around _))
        simp only [Naming.Step, Naming.next?, hknown, he]

theorem endsWithin_of_acyclic (hc : catalog.Consistent)
    (hcycle : ∀ name, ¬ Relation.TransGen catalog.Holds name name) (name : String) :
    catalog.EndsWithin catalog.size name := by
  have hclosed : catalog.Closed Set.univ := fun _ _ _ _ => trivial
  exact Catalog.endsWithin_size hc hclosed (fun name _ => hcycle name) trivial

/-- A call for a type of the catalog ends, whatever names were given before. -/
theorem callEnds_name (hc : catalog.Consistent)
    (hcycle : ∀ name, ¬ Relation.TransGen catalog.Holds name name) (names : TypeNames)
    (hget : catalog.get? d.name = some d) :
    names.CallEnds catalog d (names.name catalog d) := by
  have hsteps := steps_nameWithin hc hcycle names [] hget
    (endsWithin_of_acyclic hc hcycle d.name)
  exact ⟨acc_of_ends (Naming.rightUnique_step catalog) hsteps (by simp [Naming.Step, Naming.next?]),
    hsteps⟩

/-! ## What is in the table stays there -/

theorem get?_nameWithin_of_get? (fuel : Nat) (d : Descriptor) (h : names.get? other = some ident) :
    (nameWithin catalog fuel names d).2.get? other = some ident := by
  induction fuel generalizing names d with
  | zero => exact h
  | succ fuel ih =>
    rw [nameWithin_succ]
    split
    · exact h
    · rename_i hknown
      -- the type that gets an identifier had none, so it is another one
      have hne : d.name ≠ other := by
        rintro rfl
        rw [h] at hknown
        cases hknown
      have hassign {names : TypeNames} (hnames : names.get? other = some ident) (base : String) :
          (names.assign d.name base).2.get? other = some ident := by
        rw [get?_assign, if_neg hne, hnames]
      split
      · exact hassign h _
      · exact hassign (ih _ h) _

theorem get?_nameAll_of_get? (ds : List Descriptor) (h : names.get? other = some ident) :
    (names.nameAll catalog ds).get? other = some ident :=
  List.foldlRecOn (motive := fun names : TypeNames => names.get? other = some ident) ds _ h
    fun _ h d _ => get?_nameWithin_of_get? _ d h

/-- What calls return are the entries of their types when all calls are done. -/
theorem forall₂_identifiers (catalog : Catalog) (names : TypeNames) (ds : List Descriptor) :
    List.Forall₂ (fun d ident => (names.nameAll catalog ds).get? d.name = some ident) ds
      (names.identifiers catalog ds) := by
  induction ds generalizing names with
  | nil => exact .nil
  | cons d ds ih => exact .cons (get?_nameAll_of_get? ds (get?_name catalog names d)) (ih _)

/-! ## Elements get their identifiers on the way -/

/-- Where a container has an identifier, so has its element, unless there is a word for it. -/
def ElementsNamed (catalog : Catalog) (names : TypeNames) : Prop :=
  ∀ d e, catalog.get? d.name = some d → namedElement? catalog d = some e →
    (names.get? d.name).isSome → (names.get? e.name).isSome

/-- A container gets its identifier after its element. -/
theorem ElementsNamed.assign (h : names.ElementsNamed catalog)
    (hget : catalog.get? d.name = some d) (base : String)
    (helement : ∀ e, namedElement? catalog d = some e → (names.get? e.name).isSome) :
    (names.assign d.name base).2.ElementsNamed catalog := by
  intro container e hgetContainer he hcontainer
  refine isSome_get?_assign names d.name base e.name ?_
  rw [get?_assign] at hcontainer
  split at hcontainer
  · rename_i heq
    rw [← heq, hget] at hgetContainer
    cases hgetContainer
    exact helement e he
  · exact h container e hgetContainer he hcontainer

theorem elementsNamed_nameWithin (hc : catalog.Consistent) (h : names.ElementsNamed catalog)
    (hget : catalog.get? d.name = some d) (hends : catalog.EndsWithin k d.name) :
    (nameWithin catalog (k + 1) names d).2.ElementsNamed catalog := by
  induction k using Nat.strong_induction_on generalizing names d with
  | _ k ih =>
    rw [nameWithin_succ]
    split
    · exact h
    · split
      · rename_i hnone
        refine h.assign hget _ fun e he => ?_
        rw [hnone] at he
        cases he
      · rename_i e he
        obtain ⟨hholds, hgetElem⟩ := holds_of_namedElement? hc hget he
        obtain ⟨m, rfl, hm⟩ := hends.of_holds hholds
        refine (ih m (Nat.lt_succ_self m) h hgetElem hm).assign hget _ fun e' he' => ?_
        obtain rfl := Option.some.inj (he.symm.trans he')
        rw [get?_nameWithin]
        rfl

theorem elementsNamed_nameAll (hc : catalog.Consistent)
    (hcycle : ∀ name, ¬ Relation.TransGen catalog.Holds name name) (reserved : List String)
    {ds : List Descriptor} (hds : ∀ d ∈ ds, catalog.get? d.name = some d) :
    ((reserving reserved).nameAll catalog ds).ElementsNamed catalog := by
  refine List.foldlRecOn (motive := ElementsNamed catalog) ds _ ?_ fun names h d hd => ?_
  · intro d e _ _ hd
    simp [get?_reserving] at hd
  · exact elementsNamed_nameWithin hc h (hds d hd) (endsWithin_of_acyclic hc hcycle d.name)

/-! ## Calls in any order -/

/-- Identifiers of types are stable and never shared. Over a catalog without a cycle of
containers, each of any number of calls ends. Calls return the same identifier exactly for the
same type, and none that is reserved. The same goes for every identifier that some type has
after the first calls, and so for the elements that are named on the way: it stays for good, it
is not reserved, and no other type has it. -/
theorem identifiers_stable_and_apart (types : List Descriptor) (reserved : List String)
    (ds : List Descriptor)
    (hcycle : ∀ name, ¬ Relation.TransGen (Catalog.ofList types).Holds name name)
    (hds : ∀ d ∈ ds, d ∈ (Catalog.ofList types).toList) :
    let catalog := Catalog.ofList types
    let idents := (reserving reserved).identifiers catalog ds
    let final := (reserving reserved).nameAll catalog ds
    (∀ d ∈ ds, ∀ names : TypeNames, names.CallEnds catalog d (names.name catalog d)) ∧
    idents.length = ds.length ∧
    (∀ (i j : Nat) (d e : Descriptor) (a b : String), ds[i]? = some d → ds[j]? = some e →
      idents[i]? = some a → idents[j]? = some b → (a = b ↔ d.name = e.name)) ∧
    (∀ ident ∈ idents, ident ∉ reserved) ∧
    (∀ front back, ds = front ++ back → ∀ name ident,
      ((reserving reserved).nameAll catalog front).get? name = some ident →
        final.get? name = some ident ∧ ident ∉ reserved ∧
          ∀ other, final.get? other = some ident → other = name) ∧
    final.ElementsNamed catalog := by
  intro catalog idents final
  have hc : catalog.Consistent := Catalog.Consistent.ofList types
  have hget : ∀ d ∈ ds, catalog.get? d.name = some d :=
    fun d hd => hc.get?_eq_some.2 ⟨hds d hd, rfl⟩
  have hdistinct : final.Distinct := distinct_nameAll catalog reserved ds
  have hentries : List.Forall₂ (fun d ident => final.get? d.name = some ident) ds idents :=
    forall₂_identifiers catalog _ ds
  refine ⟨fun d hd names => callEnds_name hc hcycle names (hget d hd),
    hentries.length_eq.symm, ?_, ?_, ?_, elementsNamed_nameAll hc hcycle reserved hget⟩
  · intro i j d e a b hd he ha hb
    obtain ⟨a', ha', hda⟩ := exists_getElem?_of_forall₂ hentries hd
    obtain ⟨b', hb', heb⟩ := exists_getElem?_of_forall₂ hentries he
    obtain rfl := Option.some.inj (ha.symm.trans ha')
    obtain rfl := Option.some.inj (hb.symm.trans hb')
    constructor
    · rintro rfl
      exact hdistinct.injective hda heb
    · intro hname
      rw [hname] at hda
      exact Option.some.inj (hda.symm.trans heb)
  · intro ident hident
    obtain ⟨d, -, hentry⟩ := exists_of_mem_forall₂ hentries.flip hident
    exact not_mem_reserved_of_get?_nameAll hentry
  · rintro front back rfl name ident hident
    have hkept : final.get? name = some ident := by
      rw [show final = ((reserving reserved).nameAll catalog front).nameAll catalog back from
        List.foldl_append]
      exact get?_nameAll_of_get? back hident
    exact ⟨hkept, not_mem_reserved_of_get?_nameAll hkept,
      fun other hother => hdistinct.injective hother hkept⟩

/-- Two types with the same last segment, two containers around one of them, and an array. -/
def junctions : List Descriptor :=
  [⟨"v3::Junction", .record []⟩, ⟨"v4::Junction", .record [⟨none, "u8"⟩]⟩,
    ⟨"Vec<v4::Junction>", .vector "v4::Junction"⟩,
    ⟨"Option<Vec<v4::Junction>>", .option "Vec<v4::Junction>"⟩,
    ⟨"[u32;4]", .fixedArray "u32" 4⟩, ⟨"u32", .primitive .u32⟩]

/-- Elements have shorter names than their containers. -/
theorem not_transGen_junctions (name : String) :
    ¬ Relation.TransGen (Catalog.ofList junctions).Holds name name := by
  have helement : ∀ a ∈ (Catalog.ofList junctions).names,
      ∀ b ∈ ((Catalog.ofList junctions).kindOf a).element?, b.length < a.length := by
    decide +kernel
  have hshorter {a b : String} (h : (Catalog.ofList junctions).Holds a b) : b.length < a.length :=
    helement a (Catalog.mem_names_of_holds (Catalog.Consistent.ofList junctions) h) b h
  have hchain : ∀ b, Relation.TransGen (Catalog.ofList junctions).Holds name b →
      b.length < name.length := by
    intro b hb
    induction hb with
    | single h => exact hshorter h
    | tail _ h ih => exact (hshorter h).trans ih
  exact fun hback => Nat.lt_irrefl _ (hchain name hback)

theorem identifiers_junctions :
    let catalog := Catalog.ofList junctions
    let ds := ["v3::Junction", "Option<Vec<v4::Junction>>", "v4::Junction", "[u32;4]",
      "v3::Junction"].filterMap catalog.get?
    (reserving ["ScaleCodec"]).identifiers catalog ds =
        ["Junction", "OptionVecJunction_2", "Junction_2", "ArrayU32x4", "Junction"] ∧
      ∃ ident, ((reserving ["ScaleCodec"]).nameAll catalog ds).get? "Vec<v4::Junction>" =
        some ident ∧ ident ∉ ["ScaleCodec"] := by
  intro catalog ds
  obtain ⟨-, -, -, -, hstays, helements⟩ := identifiers_stable_and_apart junctions ["ScaleCodec"]
    ds not_transGen_junctions (by decide +kernel)
  have hvector := helements ⟨"Option<Vec<v4::Junction>>", .option "Vec<v4::Junction>"⟩
    ⟨"Vec<v4::Junction>", .vector "v4::Junction"⟩ (by decide +kernel) (by decide +kernel)
    (by decide +kernel)
  obtain ⟨ident, hident⟩ := Option.isSome_iff_exists.1 hvector
  obtain ⟨hstill, hfree, -⟩ := hstays ds [] (List.append_nil ds).symm _ ident hident
  exact ⟨by decide +kernel, ident, hstill, hfree⟩

end TypeNames

end ScaleCalls.Solidity
