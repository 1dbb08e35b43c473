import ScaleCalls.Proofs.Solidity.CodeLines
import ScaleCalls.Solidity.CallsContract
import ScaleCalls.Solidity.CodecLibrary

/-!
# Free text in generated files

What a chain says of itself and the names that metadata gives to groups, calls and arguments
stand in comments as they are. So the code of a file is a function of identifiers, types,
encodings, indices and the pragma as long as no free text has a line feed in it. With a line
feed, what is behind it in the free text is code.

## Main definitions

- `Header.freeTexts`, `SourceUnit.freeTexts` — the texts that only comments show
- `Header.withoutFreeText`, `SourceUnit.withoutFreeText`, `CallEntry.withoutFreeText`

## Main statements

- `SourceUnit.spills`, `CallsContract.spills`, `CodecLibrary.spills` — free text is in comments
- `codeLines_eq_iff_of_withoutFreeText` — which renderings are the same code
-/

namespace ScaleCalls.Solidity

/-! ## Free text -/

/-- The texts of a header that only comments show. -/
def Header.freeTexts (header : Header) : List String :=
  [header.chain, header.specName, header.source]

def Header.withoutFreeText (header : Header) : Header :=
  { header with chain := "", specName := "", source := "" }

def CallFunction.withoutFreeText (f : CallFunction) : CallFunction := { f with qualified := "" }

/-- The texts of a skip note; all of them stand in a comment. -/
def SkipNote.freeTexts (note : SkipNote) : List String :=
  note.qualified :: note.args.flatMap fun arg => [arg.name, arg.reference]

def SkipNote.withoutFreeText (note : SkipNote) : SkipNote :=
  { note with
    qualified := ""
    args := note.args.map fun arg => { arg with name := "", reference := "" } }

/-- The texts of a unit that only comments show. -/
def SourceUnit.freeTexts (unit : SourceUnit) : List String :=
  unit.group :: (unit.skipped.flatMap SkipNote.freeTexts ++
    unit.functions.map CallFunction.qualified)

def SourceUnit.withoutFreeText (unit : SourceUnit) : SourceUnit :=
  { unit with
    group := ""
    functions := unit.functions.map CallFunction.withoutFreeText
    skipped := unit.skipped.map SkipNote.withoutFreeText }

def CallEntry.withoutFreeText (entry : CallEntry) : CallEntry := { entry with qualified := "" }

variable {header header' : Header} {unit unit' : SourceUnit} {entries entries' : List CallEntry}
  {library name : String}

/-- Lists that are equal up to free text are so element by element. -/
theorem forall₂_of_map_eq {α β : Type} {f : α → β} {g : α → List String} {xs ys : List α}
    (h : xs.map f = ys.map f) (hys : totalFeeds (ys.flatMap g) = 0) :
    List.Forall₂ (fun x y => f x = f y ∧ totalFeeds (g y) = 0) xs ys := by
  rw [← List.forall₂_eq_eq_eq, List.forall₂_map_left_iff, List.forall₂_map_right_iff] at h
  induction h with
  | nil => exact .nil
  | cons hxy _ ih =>
    rw [List.flatMap_cons, totalFeeds_append, Nat.add_eq_zero_iff] at hys
    exact .cons ⟨hxy, hys.1⟩ (ih hys.2)

/-- What the first comment of a file says of a header. -/
def Header.origin (header : Header) : String :=
  header.chain ++ (" (" ++ (header.specName ++ (" v" ++ (toString header.specVersion ++ ")"))))

theorem Header.origin_eq (header : Header) : header.origin = header.chain ++
    (" (" ++ (header.specName ++ (" v" ++ (toString header.specVersion ++ ")")))) :=
  rfl

theorem Header.totalFeeds_freeTexts (header : Header) :
    totalFeeds header.freeTexts = feeds header.origin + (feeds header.source + 0) := by
  have hopen : feeds " (" = 0 := by decide +kernel
  have hversion : feeds " v" = 0 := by decide +kernel
  have hclose : feeds ")" = 0 := by decide +kernel
  simp only [origin_eq, freeTexts, totalFeeds_cons, totalFeeds_nil, feeds_append, feeds_repr,
    hopen, hversion, hclose, Nat.zero_add, Nat.add_zero, Nat.add_assoc]

theorem Header.code_eq (header : Header) : header.code =
    [.line ("// Auto-generated from " ++ header.origin)] ++
      ([.line ("// Source: " ++ header.source)] ++
        [.line ("pragma solidity " ++ header.pragma ++ ";"), .blank]) := by
  have hfirst : "// Auto-generated from " ++ header.origin = "// Auto-generated from " ++
      header.chain ++ " (" ++ header.specName ++ " v" ++ toString header.specVersion ++ ")" := by
    rw [origin_eq]
    simp only [String.append_assoc]
  rw [hfirst]
  rfl

theorem Header.spills (h : header.withoutFreeText = header'.withoutFreeText)
    (hquiet : totalFeeds header'.freeTexts = 0) :
    Code.Spills (totalFeeds header.freeTexts) header.code header'.code := by
  have hpragma : header.pragma = header'.pragma := by
    have hsame := congrArg Header.pragma h
    exact hsame
  rw [totalFeeds_freeTexts, Nat.add_zero, Nat.add_eq_zero_iff] at hquiet
  rw [totalFeeds_freeTexts, code_eq, code_eq, hpragma]
  exact (Code.spills_line "" " Auto-generated from " (by decide +kernel) (by decide +kernel)
    hquiet.1).append ((Code.spills_line "" " Source: " (by decide +kernel) (by decide +kernel)
      hquiet.2).append (.refl _))

theorem CallFunction.spills {f f' : CallFunction} (h : f.withoutFreeText = f'.withoutFreeText)
    (hquiet : feeds f'.qualified = 0) (library : String) :
    Code.Spills (feeds f.qualified) (f.code library) (f'.code library) := by
  have hcode : ∀ f : CallFunction, f.code library = [.blank] ++
      ([.line ("/// @notice " ++ f.qualified)] ++ (f.withoutFreeText.code library).drop 2) :=
    fun _ => rfl
  rw [hcode, hcode, h, ← Nat.zero_add (feeds f.qualified), ← Nat.add_zero (feeds f.qualified)]
  exact (Code.Spills.refl _).append ((Code.spills_line "" "/ @notice " (by decide +kernel)
    (by decide +kernel) hquiet).append (.refl _))

/-- What the comment for a skipped call says. -/
def SkipNote.reason (note : SkipNote) : String :=
  note.qualified ++ (": unsupported arg types: " ++
    commaSeparated (note.args.map fun arg => arg.name ++ ":" ++ arg.reference))

theorem SkipNote.code_eq (note : SkipNote) :
    note.code = .line ("// Skipped " ++ note.reason) := by
  have hreason : "// Skipped " ++ note.reason = "// Skipped " ++ note.qualified ++
      ": unsupported arg types: " ++
        commaSeparated (note.args.map fun arg => arg.name ++ ":" ++ arg.reference) := by
    rw [reason]
    simp only [String.append_assoc]
  rw [hreason]
  rfl

theorem SkipNote.feeds_reason (note : SkipNote) :
    feeds note.reason = totalFeeds note.freeTexts := by
  have hreason : feeds ": unsupported arg types: " = 0 := by decide +kernel
  have hcolon : feeds ":" = 0 := by decide +kernel
  rw [reason, freeTexts, feeds_append, feeds_append, feeds_commaSeparated, hreason, Nat.zero_add,
    totalFeeds_cons]
  congr 1
  induction note.args with
  | nil => rfl
  | cons arg args ih =>
    rw [List.map_cons, totalFeeds_cons, ih, List.flatMap_cons, totalFeeds_append, feeds_append,
      feeds_append, hcolon]
    rfl

theorem SkipNote.spills {note note' : SkipNote} (hquiet : totalFeeds note'.freeTexts = 0) :
    Code.Spills (totalFeeds note.freeTexts) [note.code] [note'.code] := by
  rw [← feeds_reason] at hquiet ⊢
  rw [code_eq, code_eq]
  exact Code.spills_line "" " Skipped " (by decide +kernel) (by decide +kernel) hquiet

theorem SourceUnit.code_eq (unit : SourceUnit) (header : Header) (library : String) :
    unit.code header library =
      header.code ++ ([.line s!"import \"./{library}.sol\";"] ++
        (unit.withoutFreeText.declarations.flatMap (fun d => [.blank, d.code library]) ++
        ([.blank] ++
          ([.line ("/// @title Typed SCALE encoders for " ++ (unit.group ++ " calls"))] ++
            [.block s!"library {unit.withoutFreeText.library}"
              (unit.skipped.flatMap (fun note => [note.code]) ++
                unit.functions.flatMap (CallFunction.code library))])))) := by
  have htitle : "/// @title Typed SCALE encoders for " ++ (unit.group ++ " calls") =
      "/// @title Typed SCALE encoders for " ++ unit.group ++ " calls" :=
    String.append_assoc.symm
  rw [htitle, ← List.map_eq_flatMap, ← List.append_assoc, ← List.append_assoc]
  rfl

theorem SourceUnit.totalFeeds_freeTexts (unit : SourceUnit) (header : Header) :
    totalFeeds (unit.freeTexts ++ header.freeTexts) = totalFeeds header.freeTexts +
      (0 + (0 + (0 + (feeds (unit.group ++ " calls") +
        (totalFeeds (unit.skipped.flatMap SkipNote.freeTexts) +
          totalFeeds (unit.functions.flatMap fun f => [f.qualified])))))) := by
  have hcalls : feeds " calls" = 0 := by decide +kernel
  rw [feeds_append, hcalls, Nat.add_zero, totalFeeds_append, freeTexts, totalFeeds_cons,
    totalFeeds_append, List.map_eq_flatMap, Nat.zero_add, Nat.zero_add, Nat.zero_add,
    Nat.add_comm]

theorem SourceUnit.spills (hunit : unit.withoutFreeText = unit'.withoutFreeText)
    (hheader : header.withoutFreeText = header'.withoutFreeText)
    (hquiet : totalFeeds (unit'.freeTexts ++ header'.freeTexts) = 0) (library : String) :
    Code.Spills (totalFeeds (unit.freeTexts ++ header.freeTexts)) (unit.code header library)
      (unit'.code header' library) := by
  have hlibrary := congrArg SourceUnit.library hunit
  have hdeclarations := congrArg SourceUnit.declarations hunit
  rw [totalFeeds_freeTexts] at hquiet
  simp only [Nat.add_eq_zero_iff, true_and] at hquiet
  obtain ⟨hquietHeader, hquietTitle, hquietNotes, hquietFunctions⟩ := hquiet
  rw [totalFeeds_freeTexts, code_eq unit, code_eq unit', hlibrary, hdeclarations]
  -- header, import, declarations, an empty line, the title and the library
  refine (Header.spills hheader hquietHeader).append ((Code.Spills.refl _).append
    ((Code.Spills.refl _).append ((Code.Spills.refl _).append
      ((Code.spills_line "" "/ @title Typed SCALE encoders for " (by decide +kernel)
        (by decide +kernel) hquietTitle).append (Code.Spills.block _ ?_)))))
  refine (Code.spills_flatMap ?_).append (Code.spills_flatMap ?_)
  · exact (forall₂_of_map_eq (congrArg SourceUnit.skipped hunit) hquietNotes).imp
      fun _ _ h => SkipNote.spills h.2
  · refine (forall₂_of_map_eq (congrArg SourceUnit.functions hunit) hquietFunctions).imp
      fun f f' h => ?_
    have hf := CallFunction.spills h.1 (by simpa using h.2) library
    rwa [totalFeeds_cons, totalFeeds_nil, Nat.add_zero]

namespace CallsContract

/-- What a branch holds in front of the name of its call. -/
def branchFront (position : Nat) (entry : CallEntry) : String :=
  (if position = 0 then "" else "else ") ++ "if (c == Call." ++ entry.member ++ ") return " ++
    ("(" ++ toString entry.index.group.toNat ++ ", " ++ toString entry.index.call.toNat)

theorem branch_eq (position : Nat) (entry : CallEntry) :
    branch position entry =
      .line (branchFront position entry.withoutFreeText ++ "); // " ++ entry.qualified) := by
  have hbranch : branch position entry = .line (((if position = 0 then "" else "else ") ++
      "if (c == Call." ++ entry.member ++ ") return ") ++ ("(" ++
        toString entry.index.group.toNat ++ ", " ++ toString entry.index.call.toNat ++
          "); // " ++ entry.qualified)) := rfl
  rw [hbranch, branchFront]
  simp only [String.append_assoc, CallEntry.withoutFreeText]

theorem spills_branches
    (h : entries.map CallEntry.withoutFreeText = entries'.map CallEntry.withoutFreeText)
    (hquiet : totalFeeds (entries'.map CallEntry.qualified) = 0) (position : Nat) :
    Code.Spills (totalFeeds (entries.map CallEntry.qualified))
      ((entries.zipIdx position).map fun e => branch e.2 e.1)
      ((entries'.zipIdx position).map fun e => branch e.2 e.1) := by
  rw [← List.forall₂_eq_eq_eq, List.forall₂_map_left_iff, List.forall₂_map_right_iff] at h
  induction h generalizing position with
  | nil => exact .refl _
  | @cons entry entry' entries entries' hentry _ ih =>
    rw [List.map_cons, totalFeeds_cons, Nat.add_eq_zero_iff] at hquiet
    have hslashes : ∀ entry : CallEntry,
        branchFront position entry.withoutFreeText ++ "); // " =
          (branchFront position entry.withoutFreeText ++ "); ") ++ ("//" ++ " ") := by
      intro entry
      have hend : "); // " = "); " ++ ("//" ++ " ") := by decide +kernel
      rw [hend, String.append_assoc]
    rw [List.map_cons, totalFeeds_cons, List.zipIdx_cons, List.zipIdx_cons, List.map_cons,
      List.map_cons, branch_eq, branch_eq, hentry]
    exact (Code.spills_line _ " " (hslashes entry') (by decide +kernel) hquiet.1).append
      (ih hquiet.2 (position + 1))

theorem spills (h : entries.map CallEntry.withoutFreeText = entries'.map CallEntry.withoutFreeText)
    (hheader : header.withoutFreeText = header'.withoutFreeText)
    (hquiet : totalFeeds (entries'.map CallEntry.qualified ++ header'.freeTexts) = 0)
    (name : String) :
    Code.Spills (totalFeeds (entries.map CallEntry.qualified ++ header.freeTexts))
      (code name entries header) (code name entries' header') := by
  rw [totalFeeds_append, Nat.add_comm, Nat.add_eq_zero_iff] at hquiet
  have hmembers : entries.map CallEntry.member = entries'.map CallEntry.member := by
    have hsame := congrArg (List.map CallEntry.member) h
    rw [List.map_map, List.map_map] at hsame
    exact hsame
  have hlast : lastBranch entries = lastBranch entries' := by
    have hlength := congrArg List.length h
    rw [List.length_map, List.length_map] at hlength
    have hempty : entries.isEmpty = entries'.isEmpty := by
      cases entries <;> cases entries' <;> first | rfl | cases hlength
    rw [lastBranch, lastBranch, hempty]
  have hbody := Code.Spills.block ("function indices(Call c) public pure " ++
      "returns (uint8 palletIndex, uint8 callIndex)")
    ((spills_branches h hquiet.2 0).append (.refl [lastBranch entries']))
  rw [totalFeeds_append, Nat.add_comm, code, code, hmembers, hlast]
  refine (Header.spills hheader hquiet.1).append (Code.Spills.block _ ?_)
  rw [← Nat.zero_add (totalFeeds (entries.map CallEntry.qualified))]
  exact (Code.Spills.refl [.block "enum Call" (enumLines (entries'.map CallEntry.member)),
    .blank]).append hbody

end CallsContract

theorem CodecLibrary.spills (hheader : header.withoutFreeText = header'.withoutFreeText)
    (hquiet : totalFeeds header'.freeTexts = 0) (name : String) :
    Code.Spills (totalFeeds header.freeTexts) (code name header) (code name header') :=
  (Header.spills hheader hquiet).append (.refl _)

/-- Two renderings that differ in free text alone are the same code exactly if no free text
has a line feed, where the second one has none: as files of a unit, as calls contracts and
as libraries of primitive codecs. -/
theorem codeLines_eq_iff_of_withoutFreeText (unit unit' : SourceUnit)
    (entries entries' : List CallEntry) (header header' : Header) (name : String)
    (hheader : header.withoutFreeText = header'.withoutFreeText)
    (hplain : ∀ s ∈ header'.freeTexts, '\n' ∉ s.toList) :
    (unit.withoutFreeText = unit'.withoutFreeText → (∀ s ∈ unit'.freeTexts, '\n' ∉ s.toList) →
      (codeLines (unit.text header name) = codeLines (unit'.text header' name) ↔
        ∀ s ∈ unit.freeTexts ++ header.freeTexts, '\n' ∉ s.toList)) ∧
    (entries.map CallEntry.withoutFreeText = entries'.map CallEntry.withoutFreeText →
      (∀ s ∈ entries'.map CallEntry.qualified, '\n' ∉ s.toList) →
      (codeLines (CallsContract.text name entries header) =
          codeLines (CallsContract.text name entries' header') ↔
        ∀ s ∈ entries.map CallEntry.qualified ++ header.freeTexts, '\n' ∉ s.toList)) ∧
    (codeLines (CodecLibrary.text name header) = codeLines (CodecLibrary.text name header') ↔
      ∀ s ∈ header.freeTexts, '\n' ∉ s.toList) := by
  have hquiet := totalFeeds_eq_zero.2 hplain
  refine ⟨fun hunit hunitPlain => ?_, fun hentries hentriesPlain => ?_, ?_⟩
  · rw [← totalFeeds_eq_zero]
    refine (SourceUnit.spills hunit hheader ?_ name 0).codeLines_eq_iff
    rw [totalFeeds_append, totalFeeds_eq_zero.2 hunitPlain, hquiet]
  · rw [← totalFeeds_eq_zero]
    refine (CallsContract.spills hentries hheader ?_ name 0).codeLines_eq_iff
    rw [totalFeeds_append, totalFeeds_eq_zero.2 hentriesPlain, hquiet]
  · rw [← totalFeeds_eq_zero]
    exact (CodecLibrary.spills hheader hquiet name 0).codeLines_eq_iff

/-- A header with the name of a chain that goes on behind the comment. -/
def spilledHeader : Header where
  chain := "X\nlibrary Y \x7b\x7d"
  specName := "x"
  specVersion := 1
  source := "file"
  pragma := "^0.8.24"

/-- A unit with one call, and with one call that is skipped. -/
def remarkUnit : SourceUnit where
  group := "Demo"
  library := "DemoCallEncoder"
  declarations := []
  functions := [⟨"demo_set", "Demo.set", ⟨7, 0⟩, [], .callIndex ⟨7, 0⟩⟩]
  skipped := [⟨"Demo.get", ⟨7, 1⟩, [⟨"f", "Fn", .unresolvable "Fn" "not in catalog"⟩]⟩]

theorem codeLines_spilledHeader :
    let header := spilledHeader.withoutFreeText
    codeLines (remarkUnit.text spilledHeader "ScaleCodec") ≠
      codeLines (remarkUnit.withoutFreeText.text header "ScaleCodec") ∧
    codeLines (remarkUnit.text header "ScaleCodec") =
      codeLines (remarkUnit.withoutFreeText.text header "ScaleCodec") ∧
    codeLines (CallsContract.text "ScaleCodec" [⟨"demo_set", ⟨7, 0⟩, "Demo.set"⟩] spilledHeader) ≠
      codeLines (CallsContract.text "ScaleCodec" [⟨"demo_set", ⟨7, 0⟩, ""⟩] header) ∧
    codeLines (CodecLibrary.text "ScaleCodec" spilledHeader) ≠
      codeLines (CodecLibrary.text "ScaleCodec" header) := by
  intro header
  have hplain : ∀ s ∈ header.freeTexts, '\n' ∉ s.toList := by decide +kernel
  have hunit : remarkUnit.withoutFreeText = remarkUnit.withoutFreeText.withoutFreeText := rfl
  have hunitPlain : ∀ s ∈ remarkUnit.withoutFreeText.freeTexts, '\n' ∉ s.toList := by
    decide +kernel
  have hspilled : ¬ ∀ s ∈ spilledHeader.freeTexts, '\n' ∉ s.toList := by decide +kernel
  obtain ⟨hunits, hcalls, hcodecs⟩ := codeLines_eq_iff_of_withoutFreeText remarkUnit
    remarkUnit.withoutFreeText [⟨"demo_set", ⟨7, 0⟩, "Demo.set"⟩] [⟨"demo_set", ⟨7, 0⟩, ""⟩]
    spilledHeader header "ScaleCodec" rfl hplain
  obtain ⟨hsame, -, -⟩ := codeLines_eq_iff_of_withoutFreeText remarkUnit
    remarkUnit.withoutFreeText [] [] header header "ScaleCodec" rfl hplain
  refine ⟨fun heq => hspilled fun s hs => ?_, (hsame hunit hunitPlain).2 (by decide +kernel),
    fun heq => hspilled fun s hs => ?_, mt hcodecs.1 hspilled⟩
  · exact (hunits hunit hunitPlain).1 heq s (List.mem_append_right _ hs)
  · exact (hcalls rfl (by decide +kernel)).1 heq s (List.mem_append_right _ hs)

end ScaleCalls.Solidity
