import ScaleCalls.Proofs.Solidity.Encode
import ScaleCalls.Proofs.Types.ClosedGraph

/-!
# The encoders of a group

The functions of a unit are the encoders of the supported calls of its group. Each
returns the two index bytes of its call and the bytes of its arguments, for every list
of arguments of the right types; and arguments can be read back from these bytes,
whatever follows them.

## Main statements

- `Collection.unit_encodes_calls` — what the functions of a unit return
- `Collection.unit_calls_decodable` — different arguments have different bytes, and no
  encoding has the front of another
-/

namespace ScaleCalls

namespace Solidity

variable {lowering : Lowering} {unit : SourceUnit} {names : Set String} {name : String}

theorem Holds.numeric_eq {kind : TypeKind} {v w : Value} {s : Scalar} (hv : Holds kind v s)
    (hw : Holds kind w s) : v.numeric = w.numeric := by
  have canonical : ∀ u : Value, Holds kind u s → u.numeric = match s with
      | .bool b => .bool b
      | .nat n => .uint n
      | .int i => .int i
      | .bytes b => .bytes b
      | .text t => .str t := by
    intro u hu
    cases hu <;> rfl
  rw [canonical v hv, canonical w hw]

theorem covers_of_eq (value made : Value) (h : value = made) : value.Covers made := by
  subst h
  exact fun _ _ hv => hv

theorem mem_children_of_element? {kind : TypeKind} {elem : String}
    (h : kind.element? = some elem) : elem ∈ kind.children := by
  cases kind <;> cases h <;> exact List.mem_cons_self

theorem Lowering.Serves.mem_of_mem_children (hs : lowering.Serves unit names)
    (hname : name ∈ names) {child : String}
    (hchild : child ∈ (lowering.catalog.kindOf name).children) : child ∈ names := by
  have hkind : (lowering.catalog.kindOf name).isUnsupported = false := by
    generalize lowering.catalog.kindOf name = kind at hchild
    cases kind <;> first | rfl | cases hchild
  obtain ⟨d, hd, heq⟩ := Catalog.get?_of_kindOf rfl hkind
  rw [← heq] at hchild
  exact hs.closed name hname child ⟨d, hd, hchild⟩

mutual

/-- Values that stand for the same differ at most in whether integers are words. -/
theorem numeric_eq (hs : lowering.Serves unit names) (d : Datum) {name : String} {v w : Value}
    (hname : name ∈ names) (ht : d.Typed lowering.catalog (lowering.catalog.kindOf name))
    (hv : Represents unit lowering.catalog Eq name v d)
    (hw : Represents unit lowering.catalog Eq name w d) : v.numeric = w.numeric := by
  have below : ∀ child ∈ (lowering.catalog.kindOf name).children, child ∈ names :=
    fun child hchild => hs.mem_of_mem_children hname hchild
  cases d with
  | scalar s => exact Holds.numeric_eq hv hw
  | sequence items =>
    obtain ⟨elem, vs, helem, rfl, hvs⟩ := hv
    obtain ⟨elem', ws, helem', rfl, hws⟩ := hw
    rw [helem] at helem'
    cases helem'
    have hall : ∀ child ∈ List.replicate items.length elem, child ∈ names := fun child hchild =>
      below child (List.eq_of_mem_replicate hchild ▸ mem_children_of_element? helem)
    -- whichever container it is, the items are typed by the element
    have htyped : Datum.AllTyped lowering.catalog (List.replicate items.length elem) items := by
      generalize lowering.catalog.kindOf name = kind at ht helem
      cases kind with
      | vector elem' | fixedArray elem' len =>
        cases helem
        exact ht.2
      | boundedVector elem' bound =>
        cases helem
        exact ht.2.2
      | _ => cases ht
    have := numericAll_eq hs items hall htyped hvs hws
    simp only [Value.numeric, Value.numericAll_eq, this]
  | none => rw [show v = _ from hv, show w = _ from hw]
  | some d =>
    obtain ⟨elem, x, helem, hx, rfl⟩ := hv
    obtain ⟨elem', y, helem', hy, rfl⟩ := hw
    rw [helem] at helem'
    cases helem'
    have htyped : d.Typed lowering.catalog (lowering.catalog.kindOf elem) := by
      generalize lowering.catalog.kindOf name = kind at ht helem
      cases kind with
      | option elem' =>
        cases helem
        exact ht
      | _ => cases ht
    have := numeric_eq hs d (below elem (mem_children_of_element? helem)) htyped hx hy
    simp only [Value.option, Value.numeric, Value.numericEntries, Option.getD_some, this]
    rfl
  | record parts =>
    obtain ⟨fields, codec, params, vs, hkind, hcodec, hbody, hvs, rfl⟩ := hv
    obtain ⟨fields', codec', params', ws, hkind', hcodec', hbody', hws, rfl⟩ := hw
    rw [hkind] at hkind' ht below
    cases hkind'
    rw [hcodec] at hcodec'
    cases hcodec'
    rw [hbody] at hbody'
    cases hbody'
    have := numericAll_eq hs parts below ht hvs hws
    simp only [Value.numeric, Value.numericEntries_zip, this]
  | variant position parts =>
    obtain ⟨variants, u, codec, enumType, text, args, made, hkind, hu, hcodec, hcodecName, hfound,
      hargs, hmade, rfl⟩ := hv
    obtain ⟨variants', u', codec', enumType', text', args', made', hkind', hu', hcodec',
      hcodecName', hfound', hargs', hmade', rfl⟩ := hw
    rw [hkind] at hkind' ht
    cases hkind'
    rw [hu] at hu'
    cases hu'
    obtain ⟨w, hw, htyped⟩ := ht
    rw [hu] at hw
    cases hw
    -- both constructors return the byte of the variant and the bytes of the same fields
    rw [hs.construct_represents covers_of_eq hname hkind hu hcodec hcodecName hfound hargs htyped]
      at hmade
    rw [hs.construct_represents covers_of_eq hname hkind hu hcodec' hcodecName' hfound' hargs'
      htyped] at hmade'
    cases hmade
    cases hmade'
    rfl
termination_by sizeOf d

theorem numericAll_eq (hs : lowering.Serves unit names) (ds : List Datum)
    {handles : List String} {vs ws : List Value} (hnames : ∀ name ∈ handles, name ∈ names)
    (ht : Datum.AllTyped lowering.catalog handles ds)
    (hv : RepresentsAll unit lowering.catalog Eq handles vs ds)
    (hw : RepresentsAll unit lowering.catalog Eq handles ws ds) :
    vs.map Value.numeric = ws.map Value.numeric := by
  cases handles with
  | nil => cases vs <;> cases ws <;> cases ds <;> first | rfl | exact hv.elim | exact hw.elim
  | cons name handles =>
    cases vs with
    | nil => cases ds <;> cases hv
    | cons v vs =>
      cases ws with
      | nil => cases ds <;> cases hw
      | cons w ws =>
        cases ds with
        | nil => cases hv
        | cons d ds =>
          have hd := numeric_eq hs d (hnames name List.mem_cons_self) ht.1 hv.1 hw.1
          have hds := numericAll_eq hs ds (fun n hn => hnames n (List.mem_cons_of_mem _ hn)) ht.2
            hv.2 hw.2
          rw [List.map_cons, List.map_cons, hd, hds]
termination_by sizeOf ds

end

end Solidity

namespace Collection

open Solidity

variable {snapshot : Snapshot} {requested : List String} {collection : Collection}
  {policy : Policy} {codecLibrary group : String} {unit : SourceUnit}

/-- The calls of a group that are encoded. -/
def supportedCalls (collection : Collection) (group : String) : List ResolvedCall :=
  (collection.callsOf group).filter collection.isSupported

/-- The handles of the arguments of a call. -/
def handles (call : ResolvedCall) : List String := call.args.map ResolvedArgument.handle

theorem reached_of_mem {calls : List ResolvedCall} {call : ResolvedCall} (hcall : call ∈ calls) :
    ∀ handle ∈ handles call, handle ∈ collection.reached calls := by
  intro handle hhandle
  obtain ⟨arg, harg, rfl⟩ := List.mem_map.1 hhandle
  exact ⟨call, hcall, arg, harg, .refl⟩

theorem exists_unitOf (h : collection.unit policy codecLibrary group = .ok unit) :
    ∃ skipped, unit = collection.unitOf codecLibrary group (collection.supportedCalls group)
      skipped := by
  unfold Collection.unit at h
  dsimp only at h
  split at h <;> cases h <;> exact ⟨_, rfl⟩

theorem consistent_ofSnapshot (snapshot : Snapshot) (requested : List String) :
    (ofSnapshot snapshot requested).catalog.Consistent :=
  TypeTable.consistent_catalogOf _ _

theorem numbered_ofSnapshot (snapshot : Snapshot) (requested : List String) :
    (ofSnapshot snapshot requested).catalog.Numbered := by
  intro name variants hkind i v hv
  obtain ⟨d, hd, hdkind⟩ := Catalog.get?_of_kindOf hkind rfl
  obtain ⟨-, rfl⟩ := TypeTable.get?_catalogOf_eq_some.1 hd
  exact TypeTable.discriminant_of_describe hdkind hv

theorem encodings_function (lowering : Lowering) (name : String) (call : ResolvedCall) :
    (lowering.function name call).params.map Param.encoding =
      (handles call).map lowering.encoding := by
  rw [Lowering.function, Lowering.encodings_params, handles, List.map_map, List.map_map]
  rfl

/-- A function of a unit encodes its call. -/
theorem call_unitOf (hc : collection.catalog.Consistent) {calls : List ResolvedCall}
    {skipped : List SkipNote} {stands : Value → Value → Prop}
    (hstands : ∀ value made, stands value made → value.Covers made) {f : CallFunction}
    {call : ResolvedCall} {name : String}
    (hmem : f ∈ (collection.unitOf codecLibrary group calls skipped).functions)
    (hf : f = (collection.lowering codecLibrary group calls).function name call)
    (hcall : call ∈ calls) {args : List Value} {data : List Datum}
    (hargs : RepresentsAll (collection.unitOf codecLibrary group calls skipped)
      collection.catalog stands (handles call) args data)
    (ht : Datum.AllTyped collection.catalog (handles call) data) :
    (collection.unitOf codecLibrary group calls skipped).call f.name args =
      .ok (call.index.group :: call.index.call ::
        Datum.scaleAll collection.catalog (handles call) data) := by
  have hs := serves_unitOf hc codecLibrary group calls skipped
  have hencoded := hs.encodeAll_eq hstands data (reached_of_mem hcall) hargs ht
  rw [← encodings_function _ name call, ← hf] at hencoded
  -- the parameters are the arguments of the call, each under a name of its own
  have hnodup : (f.params.map Param.name).Nodup := hf ▸ Lowering.nodup_params _ _
  have hlength : f.params.length = args.length := by
    rw [hf, Lowering.function, Lowering.length_params, List.length_map, ← hargs.length_eq.1,
      handles, List.length_map]
  rw [SourceUnit.call_eq (function?_unitOf hmem) (by rw [hf]; rfl) hnodup hlength, hencoded, hf]
  rfl

/-- The functions of a unit are the encoders of the supported calls of the group, in
order. Given arguments that stand for values of the right types, each returns the index
bytes of its call and the bytes of these values. -/
theorem unit_encodes_calls (snapshot : Snapshot) (requested : List String) (policy : Policy)
    (codecLibrary group : String) (unit : SourceUnit)
    (h : (ofSnapshot snapshot requested).unit policy codecLibrary group = .ok unit) :
    let collection := ofSnapshot snapshot requested
    List.Forall₂ (fun f call => f.index = call.index ∧ ∀ args data,
        RepresentsAll unit collection.catalog Value.Covers (handles call) args data →
        Datum.AllTyped collection.catalog (handles call) data →
        unit.call f.name args = .ok (call.index.group :: call.index.call ::
          Datum.scaleAll collection.catalog (handles call) data))
      unit.functions (collection.supportedCalls group) := by
  intro collection
  obtain ⟨skipped, rfl⟩ := exists_unitOf h
  have hc := consistent_ofSnapshot snapshot requested
  refine forall₂_of_mem (functions_unitOf collection codecLibrary group _ skipped) ?_
  rintro f call hf hcall ⟨name, heq⟩
  refine ⟨by rw [heq]; rfl, fun args data hargs ht => ?_⟩
  exact call_unitOf hc (fun _ _ h => h) hf heq hcall hargs ht

/-- A snapshot with one call, of a number and of a list of numbers. -/
def sampleSnapshot : Snapshot :=
  ⟨"", "", 0, [⟨"Demo", 7, [⟨"set", 2, [⟨"value", "u256"⟩, ⟨"list", "Vec<u16>"⟩]⟩]⟩], []⟩

theorem supportedCalls_sample : (ofSnapshot sampleSnapshot ["demo"]).supportedCalls "Demo" =
    [⟨"set", "Demo", ⟨7, 2⟩, [⟨"value", "u256", "u256"⟩, ⟨"list", "Vec<u16>", "Vec<u16>"⟩]⟩] := by
  decide +kernel

theorem kindOf_sample :
    (ofSnapshot sampleSnapshot ["demo"]).catalog.kindOf "u256" = .primitive .u256 ∧
      (ofSnapshot sampleSnapshot ["demo"]).catalog.kindOf "Vec<u16>" = .vector "u16" ∧
      (ofSnapshot sampleSnapshot ["demo"]).catalog.kindOf "u16" = .primitive .u16 := by
  decide +kernel

theorem allTyped_sample (n : Nat) (ns : List Nat) (hn : n < 2 ^ 256) (hlength : ns.length < 2 ^ 64)
    (hns : ∀ n ∈ ns, n < 2 ^ 16) :
    Datum.AllTyped (ofSnapshot sampleSnapshot ["demo"]).catalog ["u256", "Vec<u16>"]
      [.scalar (.nat n), .sequence (ns.map fun n => .scalar (.nat n))] := by
  obtain ⟨hword, hlist, hitem⟩ := kindOf_sample
  refine ⟨?_, ?_, trivial⟩
  · rw [hword]
    exact .nat rfl rfl hn
  · rw [hlist]
    refine ⟨(List.length_map _).symm ▸ hlength, ?_⟩
    rw [List.length_map]
    clear hlength
    induction ns with
    | nil => trivial
    | cons m ns ih =>
      refine ⟨?_, ih fun n h => hns n (List.mem_cons_of_mem _ h)⟩
      rw [hitem]
      exact .nat rfl rfl (hns m List.mem_cons_self)

theorem unit_encodes_sample : ∃ unit f,
    (ofSnapshot sampleSnapshot ["demo"]).unit .skip "ScaleCodec" "Demo" = .ok unit ∧
      f ∈ unit.functions ∧
      unit.call f.name [.uint 5, .list [.uint 2, .uint 3]] =
        .ok (7 :: 2 :: 5 :: (List.replicate 31 0 ++ [8, 2, 0, 3, 0])) := by
  obtain ⟨unit, hunit⟩ : ∃ unit,
    (ofSnapshot sampleSnapshot ["demo"]).unit .skip "ScaleCodec" "Demo" = .ok unit := ⟨_, rfl⟩
  have h := unit_encodes_calls sampleSnapshot ["demo"] .skip "ScaleCodec" "Demo" unit hunit
  dsimp only at h
  rw [supportedCalls_sample] at h
  obtain ⟨f, rest, ⟨-, hf⟩, -, hfunctions⟩ := List.forall₂_cons_right_iff.1 h
  refine ⟨unit, f, hunit, hfunctions ▸ List.mem_cons_self, ?_⟩
  obtain ⟨-, hlist, -⟩ := kindOf_sample
  have hbytes : Datum.scaleAll (ofSnapshot sampleSnapshot ["demo"]).catalog ["u256", "Vec<u16>"]
      [.scalar (.nat 5), .sequence [.scalar (.nat 2), .scalar (.nat 3)]] =
      5 :: (List.replicate 31 0 ++ [8, 2, 0, 3, 0]) := by
    decide +kernel
  rw [← hbytes]
  refine hf _ _ ⟨.nat 5, ⟨"u16", _, by rw [hlist]; rfl, rfl, .nat 2, .nat 3, trivial⟩, trivial⟩ ?_
  exact allTyped_sample 5 [2, 3] (by decide) (by decide) (by decide)

/-- Arguments of a function can be read back from the bytes that it returns, whatever
follows these: they are equal when words are taken for the numbers that they are. -/
theorem unit_calls_decodable (snapshot : Snapshot) (requested : List String) (policy : Policy)
    (codecLibrary group : String) (unit : SourceUnit)
    (h : (ofSnapshot snapshot requested).unit policy codecLibrary group = .ok unit) :
    let collection := ofSnapshot snapshot requested
    List.Forall₂ (fun f call => ∀ a b dataA dataB,
        RepresentsAll unit collection.catalog Eq (handles call) a dataA →
        Datum.AllTyped collection.catalog (handles call) dataA →
        RepresentsAll unit collection.catalog Eq (handles call) b dataB →
        Datum.AllTyped collection.catalog (handles call) dataB →
        ∃ bytesA bytesB, unit.call f.name a = .ok bytesA ∧ unit.call f.name b = .ok bytesB ∧
          ∀ s t, bytesA ++ s = bytesB ++ t → a.map Value.numeric = b.map Value.numeric ∧ s = t)
      unit.functions (collection.supportedCalls group) := by
  intro collection
  obtain ⟨skipped, rfl⟩ := exists_unitOf h
  have hc := consistent_ofSnapshot snapshot requested
  have hs := serves_unitOf hc codecLibrary group (collection.supportedCalls group) skipped
  refine forall₂_of_mem (functions_unitOf collection codecLibrary group _ skipped) ?_
  rintro f call hf hcall ⟨name, heq⟩ a b dataA dataB ha hta hb htb
  refine ⟨_, _, call_unitOf hc covers_of_eq hf heq hcall ha hta,
    call_unitOf hc covers_of_eq hf heq hcall hb htb, fun s t hbytes => ?_⟩
  -- the index bytes agree; the values behind the arguments are told apart by the rest
  simp only [List.cons_append, List.cons.injEq, true_and] at hbytes
  obtain ⟨rfl, hst⟩ :=
    Datum.scaleAll_append_inj (numbered_ofSnapshot snapshot requested) dataA hta htb hbytes
  exact ⟨numericAll_eq hs dataA (reached_of_mem hcall) hta ha hb, hst⟩

theorem unit_decodes_sample : ∃ unit f,
    (ofSnapshot sampleSnapshot ["demo"]).unit .skip "ScaleCodec" "Demo" = .ok unit ∧
      f ∈ unit.functions ∧
      ∃ bytesA bytesB, unit.call f.name [.uint 5, .list [.uint 2]] = .ok bytesA ∧
        unit.call f.name [.word 5, .list []] = .ok bytesB ∧
        ∀ s t, bytesA ++ s ≠ bytesB ++ t := by
  obtain ⟨unit, hunit⟩ : ∃ unit,
    (ofSnapshot sampleSnapshot ["demo"]).unit .skip "ScaleCodec" "Demo" = .ok unit := ⟨_, rfl⟩
  have h := unit_calls_decodable sampleSnapshot ["demo"] .skip "ScaleCodec" "Demo" unit hunit
  dsimp only at h
  rw [supportedCalls_sample] at h
  obtain ⟨f, rest, hf, -, hfunctions⟩ := List.forall₂_cons_right_iff.1 h
  refine ⟨unit, f, hunit, hfunctions ▸ List.mem_cons_self, ?_⟩
  obtain ⟨hword, hlist, -⟩ := kindOf_sample
  have hholds : Holds ((ofSnapshot sampleSnapshot ["demo"]).catalog.kindOf "u256") (.word 5)
      (.nat 5) := by
    rw [hword]
    exact .word 5
  obtain ⟨bytesA, bytesB, ha, hb, hinj⟩ := hf [.uint 5, .list [.uint 2]] [.word 5, .list []]
    [.scalar (.nat 5), .sequence [.scalar (.nat 2)]] [.scalar (.nat 5), .sequence []]
    ⟨.nat 5, ⟨"u16", _, by rw [hlist]; rfl, rfl, .nat 2, trivial⟩, trivial⟩
    (allTyped_sample 5 [2] (by decide) (by decide) (by decide))
    ⟨hholds, ⟨"u16", _, by rw [hlist]; rfl, rfl, trivial⟩, trivial⟩
    (allTyped_sample 5 [] (by decide) (by decide) (by decide))
  exact ⟨bytesA, bytesB, ha, hb, fun s t heq => by cases (hinj s t heq).1⟩

end Collection

end ScaleCalls
