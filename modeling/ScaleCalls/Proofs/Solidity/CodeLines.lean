import Mathlib
import ScaleCalls.Solidity.UnitText

/-!
# Lines of code without their comments

A comment goes from two slashes to the end of its line. Two texts that have the same lines
but for what stands in comments are the same without them. A line feed in a comment ends
it: what follows is a line more, so a text with line feeds there is never the same as one
that has none.

## Main definitions

- `codeLines` — the lines of a text without the comments in them
- `Spills` — lines that differ in comments, with the number of line feeds in them
- `Code.Spills` — pieces of code that do

## Main statements

- `Spills.codeLines_eq_iff` — comments do not matter exactly if nothing is spilled
-/

namespace ScaleCalls.Solidity

/-! ## Lines without comments -/

/-- A line up to the first two slashes. -/
def uncommented : List Char → List Char
  | [] => []
  | c :: cs => if c = '/' ∧ cs.head? = some '/' then [] else c :: uncommented cs

/-- The lines of a text, each without the comment in it. -/
def codeLines (text : String) : List String :=
  (text.toList.splitOn '\n').map fun line => String.ofList (uncommented line)

/-- The number of line feeds in a text. -/
def feeds (text : String) : Nat := text.toList.count '\n'

/-- The number of line feeds in some texts together. -/
def totalFeeds (texts : List String) : Nat := (texts.map feeds).sum

variable {s t : String} {cs ds : List Char}

@[simp] theorem feeds_append (s t : String) : feeds (s ++ t) = feeds s + feeds t := by
  rw [feeds, String.toList_append, List.count_append, feeds, feeds]

theorem feeds_eq_zero : feeds s = 0 ↔ '\n' ∉ s.toList := List.count_eq_zero

@[simp] theorem totalFeeds_nil : totalFeeds [] = 0 := rfl

@[simp] theorem totalFeeds_cons (s : String) (texts : List String) :
    totalFeeds (s :: texts) = feeds s + totalFeeds texts := by
  rw [totalFeeds, List.map_cons, List.sum_cons, totalFeeds]

@[simp] theorem totalFeeds_append (texts more : List String) :
    totalFeeds (texts ++ more) = totalFeeds texts + totalFeeds more := by
  rw [totalFeeds, List.map_append, List.sum_append, totalFeeds, totalFeeds]

theorem totalFeeds_eq_zero {texts : List String} :
    totalFeeds texts = 0 ↔ ∀ s ∈ texts, '\n' ∉ s.toList := by
  induction texts with
  | nil => simp
  | cons s texts ih =>
    rw [totalFeeds_cons, Nat.add_eq_zero_iff, feeds_eq_zero, ih, List.forall_mem_cons]

theorem feeds_repr (n : Nat) : feeds (toString n) = 0 := by
  refine feeds_eq_zero.2 fun h => ?_
  rw [Nat.toString_eq_repr, Nat.toList_repr] at h
  exact absurd (Nat.isDigit_of_mem_toDigits (by decide) (by decide) h) (by decide)

theorem feeds_commaSeparated (texts : List String) :
    feeds (commaSeparated texts) = totalFeeds texts := by
  induction texts with
  | nil => rfl
  | cons s texts ih =>
    cases texts with
    | nil => simp [commaSeparated, totalFeeds]
    | cons t texts =>
      rw [totalFeeds_cons, ← ih, commaSeparated, commaSeparated, String.intercalate_cons_cons]
      simp [show feeds ", " = 0 from rfl]

/-- What stands behind two slashes does not matter. -/
theorem uncommented_append_slashes (cs ds : List Char) :
    uncommented (cs ++ '/' :: '/' :: ds) = uncommented (cs ++ ['/', '/']) := by
  induction cs with
  | nil => rfl
  | cons c cs ih =>
    have hhead : (cs ++ '/' :: '/' :: ds).head? = (cs ++ ['/', '/']).head? := by
      cases cs <;> rfl
    rw [List.cons_append, List.cons_append, uncommented, uncommented, hhead, ih]

/-- A text without line feeds goes on with the last line of what stands in front of it. -/
theorem exists_splitOn_append (cs : List Char) : ∃ front last, ∀ ds : List Char, '\n' ∉ ds →
    (cs ++ ds).splitOn '\n' = front ++ [last ++ ds] := by
  induction cs with
  | nil => exact ⟨[], [], fun ds hds => by simp [List.splitOn_eq_singleton hds]⟩
  | cons c cs ih =>
    obtain ⟨front, last, hlines⟩ := ih
    by_cases hc : c = '\n'
    · subst hc
      exact ⟨[] :: front, last, fun ds hds => by
        rw [List.cons_append, ← List.nil_append ('\n' :: (cs ++ ds)),
          List.splitOn_append_cons_self, hlines ds hds]
        rfl⟩
    · have hstep : ∀ ds, ((c :: cs) ++ ds).splitOn '\n' =
          ((cs ++ ds).splitOn '\n').modifyHead (c :: ·) := by
        intro ds
        rw [List.cons_append, List.splitOn_cons_eq_if_modifyHead, if_neg]
        simpa using hc
      cases front with
      | nil => exact ⟨[], c :: last, fun ds hds => by rw [hstep, hlines ds hds]; rfl⟩
      | cons first front =>
        exact ⟨(c :: first) :: front, last, fun ds hds => by rw [hstep, hlines ds hds]; rfl⟩

theorem codeLines_comment (head : String) (h : feeds s = 0) :
    codeLines (head ++ ("//" ++ s)) = codeLines (head ++ "//") := by
  have hs := feeds_eq_zero.1 h
  obtain ⟨front, last, hlines⟩ := exists_splitOn_append head.toList
  have hlong := hlines ('/' :: '/' :: s.toList) (by simpa using hs)
  have hshort := hlines ['/', '/'] (by decide)
  have hlist : (head ++ ("//" ++ s)).toList = head.toList ++ '/' :: '/' :: s.toList := by
    simp [String.toList_append]
  have hlist' : (head ++ "//").toList = head.toList ++ ['/', '/'] := by
    simp [String.toList_append]
  rw [codeLines, codeLines, hlist, hlist', hlong, hshort, List.map_append, List.map_append,
    List.map_singleton, List.map_singleton, uncommented_append_slashes]

theorem length_splitOn (cs : List Char) : (cs.splitOn '\n').length = cs.count '\n' + 1 := by
  induction cs with
  | nil => rfl
  | cons c cs ih =>
    rw [List.splitOn_cons_eq_if_modifyHead, List.count_cons]
    split
    · rename_i hc
      rw [List.length_cons, ih]
    · rename_i hc
      rw [List.length_modifyHead, ih, Nat.add_zero]

theorem length_codeLines (text : String) : (codeLines text).length = feeds text + 1 := by
  rw [codeLines, List.length_map, length_splitOn, feeds]

theorem codeLines_joinLines_cons (line : String) (lines : List String) :
    codeLines (Code.joinLines (line :: lines)) =
      codeLines line ++ codeLines (Code.joinLines lines) := by
  have hlist : (Code.joinLines (line :: lines)).toList =
      line.toList ++ '\n' :: (Code.joinLines lines).toList := by
    rw [Code.joinLines, String.toList_append, String.toList_append, List.append_assoc]
    rfl
  rw [codeLines, hlist, List.splitOn_append_cons_self, List.map_append]
  rfl

/-- Lines that differ in what stands behind two slashes. The first ones have so many line
feeds more, the second ones have none there. -/
inductive Spills : Nat → List String → List String → Prop
  | nil : Spills 0 [] []
  | same {n : Nat} {lines lines' : List String} (line : String) (h : Spills n lines lines') :
      Spills n (line :: lines) (line :: lines')
  | comment {n : Nat} {lines lines' : List String} (head a b : String) (hb : feeds b = 0)
      (h : Spills n lines lines') :
      Spills (feeds a + n) ((head ++ ("//" ++ a)) :: lines) ((head ++ ("//" ++ b)) :: lines')

namespace Spills

variable {m n : Nat} {lines lines' more more' : List String}

theorem refl (lines : List String) : Spills 0 lines lines := by
  induction lines with
  | nil => exact .nil
  | cons line lines ih => exact .same line ih

theorem append (h : Spills m lines lines') (hmore : Spills n more more') :
    Spills (m + n) (lines ++ more) (lines' ++ more') := by
  induction h with
  | nil => rwa [Nat.zero_add]
  | same line _ ih => exact .same line ih
  | comment head a b hb _ ih =>
    rw [Nat.add_assoc]
    exact .comment head a b hb ih

/-- A line feed that is spilled makes a line more. -/
theorem length_eq (h : Spills n lines lines') :
    (codeLines (Code.joinLines lines)).length = (codeLines (Code.joinLines lines')).length + n := by
  induction h with
  | nil => rfl
  | same line _ ih =>
    rw [codeLines_joinLines_cons, codeLines_joinLines_cons, List.length_append,
      List.length_append, ih, Nat.add_assoc]
  | comment head a b hb _ ih =>
    have hline : ∀ s, (codeLines (head ++ ("//" ++ s))).length = feeds head + feeds s + 1 := by
      intro s
      rw [length_codeLines, feeds_append, feeds_append, show feeds "//" = 0 from rfl, Nat.zero_add]
    rw [codeLines_joinLines_cons, codeLines_joinLines_cons, List.length_append,
      List.length_append, ih, hline, hline, hb]
    omega

/-- Where nothing is spilled, comments do not matter. -/
theorem codeLines_eq (h : Spills n lines lines') (hn : n = 0) :
    codeLines (Code.joinLines lines) = codeLines (Code.joinLines lines') := by
  induction h with
  | nil => rfl
  | same line _ ih => rw [codeLines_joinLines_cons, codeLines_joinLines_cons, ih hn]
  | comment head a b hb _ ih =>
    obtain ⟨ha, hn⟩ := Nat.add_eq_zero_iff.1 hn
    rw [codeLines_joinLines_cons, codeLines_joinLines_cons, ih hn, codeLines_comment head ha,
      codeLines_comment head hb]

theorem codeLines_eq_iff (h : Spills n lines lines') :
    codeLines (Code.joinLines lines) = codeLines (Code.joinLines lines') ↔ n = 0 := by
  refine ⟨fun heq => ?_, h.codeLines_eq⟩
  have hlength := h.length_eq
  rw [heq] at hlength
  omega

end Spills

/-! ## Pieces of code -/

namespace Code

variable {m n : Nat} {codes codes' more more' body body' : List Code}

theorem linesOf_append (depth : Nat) (codes more : List Code) :
    linesOf depth (codes ++ more) = linesOf depth codes ++ linesOf depth more := by
  induction codes with
  | nil => rfl
  | cons code codes ih => rw [List.cons_append, linesOf, linesOf, ih, List.append_assoc]

/-- Pieces of code that differ in comments, with the line feeds that the first ones spill. -/
def Spills (n : Nat) (codes codes' : List Code) : Prop :=
  ∀ depth, Solidity.Spills n (linesOf depth codes) (linesOf depth codes')

theorem Spills.refl (codes : List Code) : Spills 0 codes codes := fun _ => .refl _

theorem Spills.append (h : Spills m codes codes') (hmore : Spills n more more') :
    Spills (m + n) (codes ++ more) (codes' ++ more') := by
  intro depth
  rw [linesOf_append, linesOf_append]
  exact (h depth).append (hmore depth)

theorem Spills.block (head : String) (h : Spills n body body') :
    Spills n [.block head body] [.block head body'] := by
  intro depth
  simp only [linesOf, lines, List.append_nil]
  exact .same _ ((h (depth + 1)).append (.refl _))

/-- A line that is a comment from somewhere in front of its free text on. -/
theorem spills_line {front a b : String} (head rest : String)
    (hfront : front = head ++ ("//" ++ rest)) (hrest : feeds rest = 0) (hb : feeds b = 0) :
    Spills (feeds a) [.line (front ++ a)] [.line (front ++ b)] := by
  intro depth
  simp only [linesOf, lines, List.append_nil]
  have hline : ∀ c, indentation depth ++ (front ++ c) =
      (indentation depth ++ head) ++ ("//" ++ (rest ++ c)) := by
    intro c
    rw [hfront]
    simp only [String.append_assoc]
  have hspilled : feeds (rest ++ a) = feeds a := by rw [feeds_append, hrest, Nat.zero_add]
  rw [hline, hline, ← hspilled]
  exact .comment _ _ _ (by rw [feeds_append, hrest, hb]) .nil

theorem spills_flatMap {α : Type} {f : α → List Code} {g : α → List String} {xs ys : List α}
    (h : List.Forall₂ (fun x y => Spills (totalFeeds (g x)) (f x) (f y)) xs ys) :
    Spills (totalFeeds (xs.flatMap g)) (xs.flatMap f) (ys.flatMap f) := by
  induction h with
  | nil => exact .refl _
  | cons hxy _ ih =>
    rw [List.flatMap_cons, List.flatMap_cons, List.flatMap_cons, totalFeeds_append]
    exact hxy.append ih

end Code

end ScaleCalls.Solidity
