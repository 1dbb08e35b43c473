import Mathlib.Tactic.SplitIfs
import ScaleCalls.Json.Printer
import ScaleCalls.Json.Reader

/-!
# Texts in quotes are read back

Every character has an escape of its own or stands for itself, and each of these is read
as one piece, which spells this character again.

## Main definitions

- `Json.piece` — what the escape of a character is read as
- `Json.spelled` — the pieces of a text

## Main statements

- `Json.readString?_quoted` — a quoted text is read as its pieces
- `Json.text?_spelled` — the pieces of a text spell it
-/

namespace ScaleCalls.Json

variable {c letter : Char} {cs rest : List Char}

/-- The piece that the escape of a character is read as. -/
def piece (c : Char) : Piece :=
  match shortEscape? c with
  | some _ => .char c
  | none => if c.toNat < 32 then .unit c.toNat else .char c

/-- The pieces of a text. -/
def spelled (s : String) : List Piece := s.toList.map piece

/-- The letter of a short escape is read as the character that was escaped. -/
theorem unescape?_of_shortEscape? (h : shortEscape? c = some letter) :
    letter ≠ 'u' ∧ unescape? letter = some c := by
  have hnumber : ∀ n, c.toNat = n → c = Char.ofNat n := fun n hn =>
    hn ▸ (Char.ofNat_toNat c).symm
  unfold shortEscape? at h
  split_ifs at h with hquote hslash hfeed hreturn htab hback hform <;> cases h
  · exact ⟨by decide, by rw [hquote]; rfl⟩
  · exact ⟨by decide, by rw [hslash]; rfl⟩
  · exact ⟨by decide, by rw [hfeed]; rfl⟩
  · exact ⟨by decide, by rw [hreturn]; rfl⟩
  · exact ⟨by decide, by rw [htab]; rfl⟩
  · exact ⟨by decide, by rw [hnumber 8 hback]; rfl⟩
  · exact ⟨by decide, by rw [hnumber 12 hform]; rfl⟩

theorem ne_of_shortEscape?_eq_none (h : shortEscape? c = none) : c ≠ '"' ∧ c ≠ '\\' := by
  constructor
  · rintro rfl
    cases h
  · rintro rfl
    cases h

theorem unit?_hexDigit {n : Nat} (h : n < 32) :
    unit? '0' '0' (hexDigit (n / 16)) (hexDigit (n % 16)) = some (.unit n) := by
  have hall : ∀ n < 32, unit? '0' '0' (hexDigit (n / 16)) (hexDigit (n % 16)) = some (.unit n) := by
    decide
  exact hall n h

theorem readString?_escape (c : Char) (cs : List Char) : readString? (escape c ++ cs) =
    (readString? cs).map fun p => (piece c :: p.1, p.2) := by
  unfold escape piece
  cases hshort : shortEscape? c with
  | some letter =>
    obtain ⟨hletter, hunescape⟩ := unescape?_of_shortEscape? hshort
    simp only [List.cons_append, List.nil_append]
    rw [readString?.eq_4 _ _ fun _ _ _ _ _ hu _ => hletter hu, hunescape]
    cases readString? cs <;> rfl
  | none =>
    obtain ⟨hquote, hslash⟩ := ne_of_shortEscape?_eq_none hshort
    dsimp only
    split
    · rename_i hlow
      simp only [List.cons_append, List.nil_append]
      rw [readString?, unit?_hexDigit hlow]
      cases readString? cs <;> rfl
    · rename_i hlow
      rw [List.singleton_append, readString?.eq_5 _ _ hquote (fun _ _ _ _ _ h _ => hslash h)
        (fun _ _ h _ => hslash h), if_neg (not_or.2 ⟨hlow, hslash⟩)]

theorem readString?_quoted (s : String) (rest : List Char) :
    readString? (s.toList.flatMap escape ++ '"' :: rest) = some (spelled s, rest) := by
  unfold spelled
  induction s.toList with
  | nil => rw [List.flatMap_nil, List.nil_append, readString?, List.map_nil]
  | cons c cs ih =>
    rw [List.flatMap_cons, List.append_assoc, readString?_escape, ih]
    rfl

theorem decodePieces?_unit {n : Nat} (h : n < 32) (rest : List Piece) :
    decodePieces? (.unit n :: rest) = (decodePieces? rest).map (Char.ofNat n :: ·) := by
  have hhigh : isHighSurrogate n = false := by
    simp only [isHighSurrogate, Bool.and_eq_false_imp, decide_eq_true_eq, decide_eq_false_iff_not]
    omega
  have hlow : isLowSurrogate n = false := by
    simp only [isLowSurrogate, Bool.and_eq_false_imp, decide_eq_true_eq, decide_eq_false_iff_not]
    omega
  cases rest with
  | nil => simp [decodePieces?, hhigh, hlow]
  | cons next rest =>
    cases next with
    | char c => simp [decodePieces?, hhigh, hlow]
    | unit low => rw [decodePieces?, hhigh, hlow]; rfl

theorem decodePieces?_piece (c : Char) (rest : List Piece) :
    decodePieces? (piece c :: rest) = (decodePieces? rest).map (c :: ·) := by
  unfold piece
  split
  · rw [decodePieces?]
  · split
    · rename_i hlow
      rw [decodePieces?_unit hlow, Char.ofNat_toNat]
    · rw [decodePieces?]

theorem text?_spelled (s : String) : text? (spelled s) = some s := by
  have hdecode : decodePieces? (spelled s) = some s.toList := by
    unfold spelled
    induction s.toList with
    | nil => rfl
    | cons c cs ih => rw [List.map_cons, decodePieces?_piece, ih, Option.map_some]
  rw [text?, hdecode, Option.map_some, String.ofList_toList]

end ScaleCalls.Json
