import Mathlib.Logic.Relation
import ScaleCalls.Proofs.Types.Catalog

/-!
# The graph of a catalog

The handles of its descriptors make a catalog a directed graph. A depth-first
search of it is bounded by the names that it has not seen yet: every step that goes
deeper takes one of them away.

## Main definitions

- `Catalog.Refers`, `Catalog.Reaches` — one handle, any number of handles
- `unvisited` — how many names of a list are still to be seen

## Main statements

- `acc_of_ends` — a run that comes to an end is the only one, so no endless run starts there
-/

namespace ScaleCalls

namespace Catalog

/-- The type behind a name has a handle. -/
def Refers (catalog : Catalog) (name child : String) : Prop :=
  ∃ d, catalog.get? name = some d ∧ child ∈ d.children

/-- A name can be reached from another along any number of handles. -/
def Reaches (catalog : Catalog) : String → String → Prop := Relation.ReflTransGen catalog.Refers

/-- A set of names that holds the handles of all its types. -/
def Closed (catalog : Catalog) (names : Set String) : Prop :=
  ∀ name ∈ names, ∀ child, catalog.Refers name child → child ∈ names

variable {catalog : Catalog} {names : Set String} {a b : String}

theorem Closed.mem_of_reaches (hclosed : catalog.Closed names) (ha : a ∈ names)
    (h : catalog.Reaches a b) : b ∈ names := by
  induction h with
  | refl => exact ha
  | tail _ hstep ih => exact hclosed _ ih _ hstep

end Catalog

/-- How many names of a list have not been seen. -/
def unvisited (names : List String) (seen : String → Bool) : Nat :=
  names.countP fun name => !seen name

variable {names : List String} {seen seen' : String → Bool} {name : String}

theorem unvisited_le_length (names : List String) (seen : String → Bool) :
    unvisited names seen ≤ names.length :=
  List.countP_le_length

theorem unvisited_mono (h : ∀ n, seen n → seen' n) :
    unvisited names seen' ≤ unvisited names seen := by
  refine List.countP_mono_left fun n _ hn => ?_
  have := h n
  cases hs : seen n <;> simp_all

/-- Seeing a new name of the list leaves fewer to be seen. -/
theorem unvisited_lt (h : ∀ n, seen n → seen' n) (hmem : name ∈ names)
    (hnew : ¬ seen name) (hseen : seen' name) :
    unvisited names seen' < unvisited names seen := by
  obtain ⟨front, back, rfl⟩ := List.append_of_mem hmem
  have hfront : unvisited front seen' ≤ unvisited front seen := unvisited_mono h
  have hback : unvisited back seen' ≤ unvisited back seen := unvisited_mono h
  simp only [unvisited, List.countP_append, List.countP_cons] at hfront hback ⊢
  simp only [Bool.not_eq_true] at hnew
  simp only [hnew, hseen, Bool.not_true, Bool.not_false, if_true]
  simp only [Bool.false_eq_true, if_false]
  omega

/-- Where steps leave no choice and one run comes to an end, there is no endless run. -/
theorem acc_of_ends {α : Type} {step : α → α → Prop} (hunique : Relator.RightUnique step)
    {start last : α} (h : Relation.ReflTransGen step start last)
    (hlast : ∀ next, ¬ step last next) : Acc (fun next now => step now next) start := by
  induction h using Relation.ReflTransGen.head_induction_on with
  | refl => exact ⟨_, fun next hnext => absurd hnext (hlast next)⟩
  | head hstep _ ih => exact ⟨_, fun next hnext => hunique hstep hnext ▸ ih⟩

end ScaleCalls
