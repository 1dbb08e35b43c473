import ScaleCalls.Proofs.Calls.TopLevel
import ScaleCalls.Proofs.Solidity.DeclaredNames

/-!
# All names of a unit can be used

Whatever the metadata calls its groups, calls, arguments, types, fields and variants, the names
that a unit makes of them are identifiers which Solidity accepts: they come from conversions
that give such names, and from scopes and suffixes that keep them so.

## Main definitions

- `SourceUnit.localNames` — the names of parameters, members of structs and constructors
- `SourceUnit.identifiers` — all names that a unit declares

## Main statements

- `Collection.mem_localNames_unitOf` — which arguments and types local names belong to
- `Collection.isTypeName_of_declared` — the form of the names at the top level
- `Collection.converted_names_usable` — converted names, and the names of a unit
-/

namespace ScaleCalls

namespace Solidity.SourceUnit

/-- The names of parameters, of members of structs and of constructors. -/
def localNames (unit : SourceUnit) : List String :=
  unit.functions.flatMap (fun f => f.params.map Param.name) ++
    unit.declarations.flatMap Declaration.localNames

/-- The members of the tag enums. -/
def tagMembers (unit : SourceUnit) : List String :=
  unit.declarations.flatMap Declaration.tagMembers

/-- All names that a unit declares: its library and its functions, what it declares at the top
level, and the names inside these. -/
def identifiers (unit : SourceUnit) : List String :=
  unit.library :: unit.functions.map CallFunction.name ++ unit.declarations.map Declaration.name ++
    unit.tagMembers ++ unit.localNames

end Solidity.SourceUnit

namespace Collection

open Solidity

variable {collection : Collection} {calls : List ResolvedCall} {skipped : List SkipNote}
  {codecLibrary group name : String} {x : Declaration}

/-- The names of the parameters of a call. -/
theorem names_function (lowering : Lowering) (fname : String) (call : ResolvedCall) :
    (lowering.function fname call).params.map Param.name =
      Scope.empty.claimAll (call.args.map fun arg => camel arg.name) := by
  rw [Lowering.function, Lowering.names_params, List.map_map]
  rfl

theorem mem_localNames_unitOf :
    name ∈ (collection.unitOf codecLibrary group calls skipped).localNames ↔
      (∃ call ∈ calls, name ∈ Scope.empty.claimAll (call.args.map fun arg => camel arg.name)) ∨
        ∃ d ∈ collection.declaredTypes calls, name ∈
          ((collection.lowering codecLibrary group calls).declarations d).flatMap
            Declaration.localNames := by
  have hfunctions : (collection.unitOf codecLibrary group calls skipped).functions.map
      (fun f => f.params.map Param.name) =
      calls.map fun call => Scope.empty.claimAll (call.args.map fun arg => camel arg.name) := by
    rw [unitOf]
    refine map_zipWith_of_right ?_ (by simp)
    exact fun fname call => names_function _ fname call
  rw [SourceUnit.localNames, List.mem_append, List.flatMap_def, hfunctions, ← List.flatMap_def,
    List.mem_flatMap]
  refine or_congr_right ?_
  rw [show (collection.unitOf codecLibrary group calls skipped).declarations =
    (collection.declaredTypes calls).flatMap
      (collection.lowering codecLibrary group calls).declarations from rfl,
    List.flatMap_assoc, List.mem_flatMap]

/-- A declared name is the identifier of a type with one of two words behind it, or as it is. -/
theorem isTypeName_of_declared
    (hx : x ∈ (collection.unitOf codecLibrary group calls skipped).declarations) :
    IsTypeName x.name := by
  obtain ⟨d, -, -, ident, hident, hname⟩ := exists_declared hx
  rw [hname]
  have hending : ∀ ending ∈ ["Tag", "", "Codec"], ending.toList.all isIdentifierChar := by
    decide +kernel
  refine (TypeNames.isTypeName_of_get?_nameAll hident).append (hending x.ending ?_)
  cases x <;> simp [Declaration.ending]

theorem isTypeName_libraryName (group : String) : IsTypeName (libraryName group) :=
  (isTypeName_pascal group).append (by decide +kernel)

theorem exists_variants_of_mem_tagMembers
    (h : name ∈ (collection.unitOf codecLibrary group calls skipped).tagMembers) :
    ∃ variants, name ∈ Lowering.tagMembers variants := by
  obtain ⟨x, hx, hname⟩ := List.mem_flatMap.1 h
  obtain ⟨d, -, hdeclared⟩ := mem_declarations_unitOf.1 hx
  exact Lowering.exists_of_mem_tagMembers hdeclared hname

theorem usable_of_mem_functions (h : name ∈ (collection.unitOf codecLibrary group calls
    skipped).functions.map CallFunction.name) : Usable name ∧ Marked name := by
  rw [names_functions_unitOf] at h
  have hbases : ∀ base ∈ calls.map ResolvedCall.functionBase, Usable base ∧ Marked base := by
    intro base hbase
    obtain ⟨call, -, rfl⟩ := List.mem_map.1 hbase
    exact ⟨usable_functionName _ _, marked_functionName _ _⟩
  exact ⟨usable_of_mem_claimAll (fun base hbase => (hbases base hbase).1) h,
    marked_of_mem_claimAll (fun base hbase => (hbases base hbase).2) h⟩

theorem usable_of_mem_localNames
    (h : name ∈ (collection.unitOf codecLibrary group calls skipped).localNames) :
    Usable name := by
  obtain ⟨call, -, hparam⟩ | ⟨d, -, hdeclared⟩ := mem_localNames_unitOf.1 h
  · refine usable_of_mem_claimAll (fun base hbase => ?_) hparam
    obtain ⟨arg, -, rfl⟩ := List.mem_map.1 hbase
    exact usable_camel arg.name
  · exact Lowering.usable_of_mem_localNames hdeclared

/-- Converted names can be used and stay as they are. For every text, its forms in both cases
are names that Solidity accepts, converting them again gives them back, and they are still
accepted with the suffix that a scope may give them. Hence all names that a unit declares are
accepted, whatever the metadata has. -/
theorem converted_names_usable :
    (∀ s, Usable (pascal s) ∧ Usable (camel s) ∧
      pascal (pascal s) = pascal s ∧ camel (camel s) = camel s ∧
      ∀ scope : Scope, Usable (scope.claim (pascal s)).1 ∧ Usable (scope.claim (camel s)).1) ∧
    ∀ (snapshot : Snapshot) (requested : List String) (policy : Policy)
      (codecLibrary group : String) (unit : SourceUnit),
      (ofSnapshot snapshot requested).unit policy codecLibrary group = .ok unit →
        ∀ name ∈ unit.identifiers, Usable name := by
  refine ⟨fun s => ⟨usable_pascal s, usable_camel s, pascal_pascal s, camel_camel s,
    fun scope => ⟨usable_nameFor scope (usable_pascal s), usable_nameFor scope (usable_camel s)⟩⟩,
    ?_⟩
  intro snapshot requested policy codecLibrary group unit h name hname
  obtain ⟨skipped, rfl⟩ := exists_unitOf h
  simp only [SourceUnit.identifiers, List.cons_append, List.append_assoc, List.mem_cons,
    List.mem_append] at hname
  obtain rfl | hfunction | hdeclared | htag | hlocal := hname
  · exact (isTypeName_libraryName group).usable
  · exact (usable_of_mem_functions hfunction).1
  · obtain ⟨x, hx, rfl⟩ := List.mem_map.1 hdeclared
    exact (isTypeName_of_declared hx).usable
  · obtain ⟨variants, hmember⟩ := exists_variants_of_mem_tagMembers htag
    exact Lowering.usable_of_mem_tagMembers hmember
  · exact usable_of_mem_localNames hlocal

/-- A snapshot with names that start with digits, are empty or are words of the language. -/
def oddSnapshot : Snapshot where
  chain := ""
  specName := ""
  specVersion := 0
  pallets := [⟨"3d world", 8,
    [⟨"new", 0, [⟨"address", "u8"⟩, ⟨"Address", "Tone"⟩, ⟨"", "Vec<Tone>"⟩]⟩]⟩]
  types := [⟨0, "Tone", [], some (.object [("_enum", .array [.string "encode"])])⟩]

theorem identifiers_usable_odd : ∃ unit,
    (ofSnapshot oddSnapshot ["3d world"]).unit .skip "ScaleCodec" "3d world" = .ok unit ∧
      unit.identifiers = ["_3dWorldCallEncoder", "_3dWorld_new_", "ToneTag", "Tone", "ToneCodec",
        "VecToneCodec", "Encode", "address_", "address__2", "x", "tag", "payload", "encode_2"] ∧
      ∀ name ∈ unit.identifiers, Usable name := by
  have hunit := unit_skip (ofSnapshot oddSnapshot ["3d world"]) "ScaleCodec" "3d world"
  exact ⟨_, hunit, by decide +kernel,
    converted_names_usable.2 oddSnapshot ["3d world"] .skip "ScaleCodec" "3d world" _ hunit⟩

end Collection

end ScaleCalls
