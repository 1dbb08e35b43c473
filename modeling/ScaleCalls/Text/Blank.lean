/-!
# Blank characters

The characters with the Unicode property White_Space, as closed ranges of code
points (Unicode 15). Names of types are compared with all blanks removed, and a
setting that holds nothing but blanks counts as empty.

## Main definitions

- `Text.isBlank` — membership in the property
- `Text.stripBlanks` — a text without its blanks
- `Text.allBlank` — nothing but blanks
-/

namespace ScaleCalls.Text

/-- The ranges of the property White_Space, ascending and apart. -/
def blankRanges : List (Nat × Nat) :=
  [(0x09, 0x0D), (0x20, 0x20), (0x85, 0x85), (0xA0, 0xA0), (0x1680, 0x1680),
   (0x2000, 0x200A), (0x2028, 0x2029), (0x202F, 0x202F), (0x205F, 0x205F),
   (0x3000, 0x3000)]

/-- A character is blank when its code point lies in one of the ranges. -/
def isBlank (c : Char) : Bool :=
  blankRanges.any fun r => r.1 ≤ c.toNat && c.toNat ≤ r.2

/-- The text with every blank left out. -/
def stripBlanks (s : String) : String :=
  String.ofList (s.toList.filter fun c => !isBlank c)

/-- The text holds no character that is not blank. -/
def allBlank (s : String) : Bool :=
  s.toList.all isBlank

/-- Between the space and the next line there is no blank. -/
theorem not_isBlank_of_range {c : Char} (hlow : 0x20 < c.toNat) (hhigh : c.toNat < 0x85) :
    isBlank c = false := by
  simp only [isBlank, blankRanges, List.any_cons, List.any_nil, Bool.or_false, Bool.or_eq_false_iff,
    Bool.and_eq_false_imp, decide_eq_true_eq, decide_eq_false_iff_not]
  omega

theorem toList_stripBlanks (s : String) :
    (stripBlanks s).toList = s.toList.filter fun c => !isBlank c := by
  simp [stripBlanks]

/-- Without blanks there is nothing to leave out. -/
theorem stripBlanks_eq_self {s : String} (h : ∀ c ∈ s.toList, isBlank c = false) :
    stripBlanks s = s := by
  have hfilter : s.toList.filter (fun c => !isBlank c) = s.toList := by
    rw [List.filter_eq_self]
    intro c hc
    rw [h c hc]
    rfl
  rw [stripBlanks, hfilter, String.ofList_toList]

/-- Blanks are removed once and for all. -/
theorem stripBlanks_stripBlanks (s : String) : stripBlanks (stripBlanks s) = stripBlanks s := by
  simp [stripBlanks]

end ScaleCalls.Text
