import ScaleCalls.Proofs.Types.Agree
import ScaleCalls.Solidity.Lowering

/-!
# Lowering sees only what it reaches

Identifiers, types, encodings and declarations of a type are read off the entries that the
type leads to. So they are the same for two catalogs that agree on these. Identifiers and
types of arrays follow chains of containers, and each catalog has enough fuel for the
chains that end within it.

## Main definitions

- `Lowering.Alike` — two lowerings are the same on a closed set of names

## Main statements

- `TypeNames.nameAll_eq` — the same identifiers are given out
- `Lowering.Alike.declarations_eq`, `Lowering.Alike.function_eq` — the same code is made
-/

namespace ScaleCalls

namespace Solidity

variable {first second : Catalog} {names : Set String}

/-- Along a chain of containers that ends, the same identifiers are given out. -/
theorem TypeNames.nameWithin_eq (h : first.Agree second names) (k k' : Nat)
    (given : TypeNames) {d : Descriptor} (hname : d.name ∈ names)
    (hget : first.get? d.name = some d) (hends : first.EndsWithin k d.name)
    (hends' : second.EndsWithin k' d.name) :
    nameWithin first (k + 1) given d = nameWithin second (k' + 1) given d := by
  induction k using Nat.strong_induction_on generalizing k' given d with
  | _ k ih =>
    rw [nameWithin, nameWithin]
    cases given.get? d.name with
    | some ident => rfl
    | none =>
      cases helem : d.kind.element? with
      | none => rfl
      | some elem =>
        have hholds : first.Holds d.name elem := by
          rw [Catalog.Holds, Catalog.kindOf_of_get? hget, helem]
        have hmem : elem ∈ names :=
          h.mem_of_mem_children hname (Catalog.mem_children_of_holds hholds)
        obtain ⟨m, rfl, hm⟩ := hends.of_holds hholds
        obtain ⟨m', rfl, hm'⟩ := hends'.of_holds (h.holds hname hholds)
        dsimp only
        rw [h.get? elem hmem]
        cases hgetElem : second.get? elem with
        | none => rfl
        | some e =>
          obtain rfl := h.consistent'.name_of_get? hgetElem
          dsimp only
          rw [ih m (Nat.lt_succ_self m) m' given hmem ((h.get? _ hmem).trans hgetElem) hm hm']

/-- Chains of containers from some names end within the catalogs. -/
structure Bounded (first second : Catalog) (names : Set String) : Prop where
  first : ∀ name ∈ names, first.EndsWithin first.size name
  second : ∀ name ∈ names, second.EndsWithin second.size name

/-- Where no chain comes back to a name in one catalog, chains end within both. -/
theorem Bounded.of_acyclic (h : first.Agree second names)
    (hcycle : ∀ name ∈ names, ¬ Relation.TransGen first.Holds name name) :
    Bounded first second names where
  first := fun _ hname => Catalog.endsWithin_size h.consistent h.closed hcycle hname
  second := fun _ hname => Catalog.endsWithin_size h.consistent' h.symm.closed
    (fun n hn hreturns => hcycle n hn (h.symm.transGen_holds hn hreturns).1) hname

theorem TypeNames.nameAll_eq (h : first.Agree second names) (hends : Bounded first second names)
    (given : TypeNames) {ds : List Descriptor}
    (hds : ∀ d ∈ ds, d.name ∈ names ∧ first.get? d.name = some d) :
    given.nameAll first ds = given.nameAll second ds := by
  refine List.foldl_ext _ _ _ fun given d hd => ?_
  obtain ⟨hname, hget⟩ := hds d hd
  rw [TypeNames.name, TypeNames.name,
    nameWithin_eq h _ _ given hname hget (hends.first _ hname) (hends.second _ hname)]

namespace Lowering

/-- Two lowerings with the same identifiers, over catalogs that agree on some names. -/
structure Alike (first second : Lowering) (names : Set String) : Prop where
  agree : first.catalog.Agree second.catalog names
  bounded : Bounded first.catalog second.catalog names
  idents : first.names = second.names

namespace Alike

variable {first second : Lowering} {handle : String}

theorem ident_eq (h : Alike first second names) (handle : String) :
    first.ident handle = second.ident handle := by
  rw [ident, ident, h.idents]

theorem codecName_eq (h : Alike first second names) (handle : String) :
    first.codecName handle = second.codecName handle := by
  rw [codecName, codecName, h.ident_eq]

theorem encoding_eq (h : Alike first second names) (hmem : handle ∈ names) :
    first.encoding handle = second.encoding handle := by
  rw [encoding, encoding, h.agree.get? handle hmem, h.codecName_eq]

theorem tyWithin_eq (h : Alike first second names) (k k' : Nat) (hmem : handle ∈ names)
    (hends : first.catalog.EndsWithin k handle) (hends' : second.catalog.EndsWithin k' handle) :
    first.tyWithin (k + 1) handle = second.tyWithin (k' + 1) handle := by
  induction k using Nat.strong_induction_on generalizing k' handle with
  | _ k ih =>
    rw [tyWithin, tyWithin, h.agree.get? handle hmem]
    cases hget : second.catalog.get? handle with
    | none => rfl
    | some d =>
      have helem : ∀ elem, d.kind.element? = some elem →
          first.tyWithin k elem = second.tyWithin k' elem := by
        intro elem helem
        have hholds : first.catalog.Holds handle elem := by
          rw [Catalog.Holds, Catalog.kindOf_of_get? ((h.agree.get? handle hmem).trans hget), helem]
        obtain ⟨m, rfl, hm⟩ := hends.of_holds hholds
        obtain ⟨m', rfl, hm'⟩ := hends'.of_holds (h.agree.holds hmem hholds)
        exact ih m (Nat.lt_succ_self m) m'
          (h.agree.mem_of_mem_children hmem (Catalog.mem_children_of_holds hholds)) hm hm'
      dsimp only
      cases hkind : d.kind with
      | vector elem | boundedVector elem _ | fixedArray elem _ =>
        dsimp only
        rw [helem elem (by rw [hkind]; rfl)]
      | option _ | record _ | enum _ =>
        dsimp only
        rw [h.ident_eq]
      | _ => rfl

theorem ty_eq (h : Alike first second names) (hmem : handle ∈ names) :
    first.ty handle = second.ty handle :=
  h.tyWithin_eq _ _ hmem (h.bounded.first handle hmem) (h.bounded.second handle hmem)

theorem params_eq (h : Alike first second names) {wanted : List (String × String)}
    (hwanted : ∀ w ∈ wanted, w.2 ∈ names) : first.params wanted = second.params wanted := by
  refine zipWith_congr_of_mem fun name w hw => ?_
  rw [h.ty_eq (hwanted w hw), h.encoding_eq (hwanted w hw)]

theorem fields_eq (h : Alike first second names) {fields : List Field}
    (hfields : ∀ f ∈ fields, f.handle ∈ names) : first.fields fields = second.fields fields := by
  refine h.params_eq fun w hw => ?_
  obtain ⟨f, hf, rfl⟩ := List.mem_map.1 hw
  exact hfields f.1 (List.fst_mem_of_mem_zipIdx hf)

theorem constructors_eq (h : Alike first second names) {variants : List Variant}
    (hvariants : ∀ v ∈ variants, ∀ f ∈ v.fields, f.handle ∈ names) :
    first.constructors variants = second.constructors variants := by
  refine zipWith_congr_of_mem fun n v hv => ?_
  rw [constructor, constructor, h.fields_eq (hvariants v hv)]

/-- A type is declared in the same way. -/
theorem declarations_eq (h : Alike first second names) {d : Descriptor} (hname : d.name ∈ names)
    (hchildren : ∀ child ∈ d.children, child ∈ names) :
    first.declarations d = second.declarations d := by
  have hcodec : ∀ body constructors, first.codec d body constructors =
      second.codec d body constructors := by
    intro body constructors
    rw [codec, codec, h.codecName_eq, h.ty_eq hname]
  unfold Descriptor.children at hchildren
  unfold declarations
  cases hkind : d.kind with
  | record fields =>
    rw [hkind] at hchildren
    have hfields := h.fields_eq fun f hf => hchildren f.handle (List.mem_map_of_mem hf)
    simp only [hcodec, h.ident_eq, hfields]
  | enum variants =>
    rw [hkind] at hchildren
    have hconstructors := h.constructors_eq fun v hv f hf => hchildren f.handle
      (List.mem_flatMap.2 ⟨v, hv, List.mem_map_of_mem hf⟩)
    simp only [hcodec, h.ident_eq, hconstructors]
  | option elem | vector elem | boundedVector elem _ | fixedArray elem _ =>
    rw [hkind] at hchildren
    have helem : elem ∈ names := hchildren elem List.mem_cons_self
    simp only [hcodec, h.ident_eq, h.encoding_eq helem, h.ty_eq helem]
  | _ => rfl

theorem function_eq (h : Alike first second names) (name : String) {call : ResolvedCall}
    (hcall : ∀ arg ∈ call.args, arg.handle ∈ names) :
    first.function name call = second.function name call := by
  have hparams : first.params (call.args.map fun a => (camel a.name, a.handle)) =
      second.params (call.args.map fun a => (camel a.name, a.handle)) := by
    refine h.params_eq fun w hw => ?_
    obtain ⟨arg, harg, rfl⟩ := List.mem_map.1 hw
    exact hcall arg harg
  rw [function, function, hparams]

end Alike

end Lowering

end Solidity

end ScaleCalls
