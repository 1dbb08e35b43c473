import ScaleCalls.Proofs.Calls.Closed
import ScaleCalls.Proofs.Calls.Groups
import ScaleCalls.Proofs.Solidity.ConstructorNames
import ScaleCalls.Proofs.Types.Variants

/-!
# A variant is made by its own constructor

A value of an enum is made by the first constructor that goes by a text, as its name or as its
member of the tag enum. In the units of a snapshot no text stands for two constructors, so each
of them is found by both of its names, however the variants are called in the metadata.

## Main statements

- `Lowering.eq_of_goesBy` — constructors that go by one text are the same
- `Collection.unit_selects_constructor` — both names of a constructor select it
-/

namespace ScaleCalls

namespace Solidity.Lowering

variable {lowering : Lowering} {variants : List Variant} {i j : Nat} {k l : Constructor}

theorem getElem?_constructorNames (hk : (lowering.constructors variants)[i]? = some k) :
    (constructorNames variants)[i]? = some k.name := by
  rw [← names_constructors lowering, List.getElem?_map, hk, Option.map_some]

theorem getElem?_tagMembers (hk : (lowering.constructors variants)[i]? = some k) :
    (tagMembers variants)[i]? = some k.member := by
  rw [← members_constructors lowering, List.getElem?_map, hk, Option.map_some]

/-- Two constructors that go by one text stand at the same place: names are apart, members are
apart, and a name is no member of another variant. -/
theorem eq_of_goesBy (hk : (lowering.constructors variants)[i]? = some k)
    (hl : (lowering.constructors variants)[j]? = some l) {variant : String}
    (hkvariant : k.GoesBy variant) (hlvariant : l.GoesBy variant) : i = j := by
  obtain rfl | rfl := hkvariant
  · have hname := getElem?_constructorNames hk
    obtain heq | heq := hlvariant
    · exact eq_of_getElem?_eq_some (Scope.nodup_claimAll _ _) hname
        (heq ▸ getElem?_constructorNames hl)
    · exact eq_of_name_eq_member hname (heq ▸ getElem?_tagMembers hl)
  · have hmember := getElem?_tagMembers hk
    obtain heq | heq := hlvariant
    · exact (eq_of_name_eq_member (getElem?_constructorNames hl) (heq ▸ hmember)).symm
    · exact eq_of_getElem?_eq_some (Scope.nodup_claimAll _ _) hmember
        (heq ▸ getElem?_tagMembers hl)

end Solidity.Lowering

namespace Collection

open Solidity

variable {collection : Collection} {calls : List ResolvedCall} {skipped : List SkipNote}
  {codecLibrary group : String} {codec : Codec}

/-- A codec library of a unit is found by its name. -/
theorem codec?_of_mem (hc : collection.catalog.Consistent)
    (h : codec ∈ (collection.unitOf codecLibrary group calls skipped).codecs) :
    (collection.unitOf codecLibrary group calls skipped).codec? codec.name = some codec := by
  obtain ⟨d, hd, hdeclared⟩ := mem_codecs_unitOf.1 h
  rw [(Lowering.name_of_codec_mem hdeclared).1]
  exact (Lowering.finds_of_declarations rfl (fun e he => (get?_of_mem_declaredTypes hc he).1)
    (fun e he => TypeNames.isSome_get?_nameAll he _) (TypeNames.distinct_nameAll _ _ _) hd
    hdeclared).1

/-- In the unit of a group, constructors of a codec library that go by one text are the same,
whatever the variants are called in the metadata. So a text that a constructor goes by, as its
name or as its member of the tag enum, selects this constructor for every list of arguments. -/
theorem unit_selects_constructor (snapshot : Snapshot) (requested : List String)
    (policy : Policy) (codecLibrary group : String) (unit : SourceUnit)
    (h : (ofSnapshot snapshot requested).unit policy codecLibrary group = .ok unit) :
    ∀ codec ∈ unit.codecs, ∀ enumType, codec.name = enumType ++ "Codec" →
      ∀ (i : Nat) (c : Constructor), codec.constructors[i]? = some c →
      ∀ variant, c.GoesBy variant →
        (∀ (j : Nat) (k : Constructor), codec.constructors[j]? = some k → k.GoesBy variant →
          j = i) ∧
        unit.constructor? enumType variant = .ok c ∧
        ∀ args, unit.construct enumType variant args = unit.make c args := by
  obtain ⟨skipped, rfl⟩ := exists_unitOf h
  intro codec hcodec enumType hname i c hc variant hvariant
  have hfound := codec?_of_mem (consistent_ofSnapshot snapshot requested) hcodec
  obtain ⟨d, -, hdeclared⟩ := mem_codecs_unitOf.1 hcodec
  have honly : ∀ (j : Nat) (k : Constructor), codec.constructors[j]? = some k →
      k.GoesBy variant → j = i := by
    rw [Lowering.constructors_of_codec hdeclared] at hc ⊢
    exact fun j k hk hkvariant => Lowering.eq_of_goesBy hk hc hkvariant hvariant
  have hselects : (codec.constructors.find? fun c => c.name == variant || c.member == variant) =
      some c := by
    refine find?_eq_some_of_unique (List.mem_of_getElem? hc)
      (by simpa [Constructor.GoesBy] using hvariant) fun k hk hkvariant => ?_
    obtain ⟨j, hj⟩ := List.mem_iff_getElem?.1 hk
    obtain rfl := honly j k hj (by simpa [Constructor.GoesBy] using hkvariant)
    exact Option.some.inj (hj.symm.trans hc)
  have hconstructor : ((ofSnapshot snapshot requested).unitOf codecLibrary group
      ((ofSnapshot snapshot requested).supportedCalls group) skipped).constructor? enumType
      variant = .ok c := by
    rw [SourceUnit.constructor?, ← hname, hfound]
    simp only [hselects]
  refine ⟨honly, hconstructor, fun args => ?_⟩
  rw [SourceUnit.construct_eq_make, hconstructor]
  rfl

/-- A snapshot with an enum whose variants differ in the case of letters only, or have the name
of the encoders. -/
def toneSnapshot : Snapshot where
  chain := ""
  specName := ""
  specVersion := 0
  pallets := [⟨"Studio", 5, [⟨"paint", 0, [⟨"tone", "Tone"⟩]⟩]⟩]
  types := [⟨0, "Tone", [], some (.object [("_enum", .array
    [.string "encode", .string "Encode", .string "1st", .string "1ST"])])⟩]

def toneDescriptor : Descriptor :=
  ⟨"Tone", .enum [⟨"encode", 0, []⟩, ⟨"Encode", 1, []⟩, ⟨"1st", 2, []⟩, ⟨"1ST", 3, []⟩]⟩

def toneCollection : Collection where
  calls := [⟨"paint", "Studio", ⟨5, 0⟩, [⟨"tone", "Tone", "Tone"⟩]⟩]
  catalog := .ofList [toneDescriptor]
  groups := ["Studio"]
  unknownGroups := []

theorem describe_tone :
    (TypeTable.ofSnapshot toneSnapshot).describe "Tone" = toneDescriptor := by
  -- no variant has an index, so the order of the variants is that of their declaration
  let raw : List Shape.Variant :=
    [⟨"encode", none, []⟩, ⟨"Encode", none, []⟩, ⟨"1st", none, []⟩, ⟨"1ST", none, []⟩]
  have hordered : Shape.ordered raw = raw := Shape.ordered_of_index_eq_none (by simp [raw])
  have hcanonical : (TypeTable.ofSnapshot toneSnapshot).canonical "Tone" = .ok "Tone" := rfl
  have hclassify : TypeName.classify "Tone" = .unsupported := by decide +kernel
  have hshape : (TypeTable.ofSnapshot toneSnapshot).shape "Tone" = .ok (.enum raw) := rfl
  unfold TypeTable.describe
  simp only [hcanonical, hclassify, TypeTable.ofCategory, TypeTable.composite, hshape]
  rw [TypeTable.ofShape, TypeTable.variants, if_neg (by decide), if_neg (by decide), hordered]
  rfl

theorem ofSnapshot_tone : ofSnapshot toneSnapshot ["studio"] = toneCollection := by
  have hfound : toneSnapshot.pallet? "studio" =
      some ⟨"Studio", 5, [⟨"paint", 0, [⟨"tone", "Tone"⟩]⟩]⟩ := rfl
  have hcatalog : (TypeTable.ofSnapshot toneSnapshot).catalogOf ["Tone"] =
      toneCollection.catalog := by
    have hhandle : (TypeTable.ofSnapshot toneSnapshot).handle "Tone" = "Tone" := rfl
    rw [TypeTable.catalogOf, List.foldl_cons, List.foldl_nil, TypeTable.enter, hhandle,
      TypeTable.walk, if_neg (by decide), describe_tone]
    rfl
  exact (ofSnapshot_singleton hfound (List.pairwise_singleton _ _)).trans
    (congrArg (fun catalog => { toneCollection with catalog }) hcatalog)

/-- Each of the variants is made by its own constructor, by either name. -/
theorem unit_selects_tone : ∃ unit codec,
    (ofSnapshot toneSnapshot ["studio"]).unit .skip "ScaleCodec" "Studio" = .ok unit ∧
      codec ∈ unit.codecs ∧ codec.name = "ToneCodec" ∧
      codec.constructors.map (fun c => (c.name, c.member)) = [("encode_2", "Encode"),
        ("encode_3", "Encode_2"), ("_1st", "_1st"), ("_1ST", "_1ST")] ∧
      ∀ (i : Nat) (c : Constructor), codec.constructors[i]? = some c → ∀ args,
        unit.construct "Tone" c.name args = unit.make c args ∧
          unit.construct "Tone" c.member args = unit.make c args := by
  have hunit := unit_skip (ofSnapshot toneSnapshot ["studio"]) "ScaleCodec" "Studio"
  have hfound : (((ofSnapshot toneSnapshot ["studio"]).skippingUnit "ScaleCodec"
      "Studio").codecs.map fun codec =>
        (codec.name, codec.constructors.map fun c => (c.name, c.member))) =
      [("ToneCodec", [("encode_2", "Encode"), ("encode_3", "Encode_2"), ("_1st", "_1st"),
        ("_1ST", "_1ST")])] := by
    rw [ofSnapshot_tone]
    decide +kernel
  obtain ⟨codec, hcodec, hpair⟩ := List.mem_map.1 (hfound ▸ List.mem_singleton_self _)
  obtain ⟨hname, hconstructors⟩ := Prod.mk.inj hpair
  refine ⟨_, codec, hunit, hcodec, hname, hconstructors, fun i c hc args => ?_⟩
  have hselects := unit_selects_constructor toneSnapshot ["studio"] .skip "ScaleCodec" "Studio" _
    hunit codec hcodec "Tone" hname i c hc
  exact ⟨(hselects c.name (.inl rfl)).2.2 args, (hselects c.member (.inr rfl)).2.2 args⟩

end Collection

end ScaleCalls
