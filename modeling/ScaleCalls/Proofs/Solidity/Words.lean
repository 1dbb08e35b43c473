import Mathlib.Algebra.Group.Nat.Defs
import ScaleCalls.Proofs.Outcome
import ScaleCalls.Solidity.Word.Run

/-!
# Runs of functions on words

What the parts of a function do to a frame in which the values of the variables are known,
and how a loop is gone through: with a property of frames that counts the rounds that are
left. A run with more rounds comes to the same, unless the rounds had been used up.

## Main definitions

- `Word.Stays` — a result that more rounds do not change

## Main statements

- `Word.exists_repeatWhile` — where a loop ends, from what one round does
- `Word.stays_runCall` — results do not depend on the limit of rounds
-/

namespace ScaleCalls.Solidity.Word

variable {frame : Frame} {name : String} {a b : Word} {left right : Expr}

theorem Frame.get_set (frame : Frame) (name other : String) (value : Word) :
    (frame.set name value).get other = if other = name then .ok value else frame.get other := by
  unfold Frame.get Frame.set
  rw [List.lookup_cons]
  by_cases h : other = name
  · rw [if_pos h, h, beq_self_eq_true]
  · rw [if_neg h, beq_false_of_ne h]

@[simp] theorem Frame.out_set (frame : Frame) (name : String) (value : Word) :
    (frame.set name value).out = frame.out := rfl

theorem checked_of_lt {n : Nat} (h : n < 2 ^ 256) : checked n = .ok (BitVec.ofNat 256 n) :=
  if_pos h

/-! ## Values, tests and changes -/

theorem Expr.value_var (h : frame.get name = .ok a) : (Expr.var name).value frame = .ok a := h

theorem Expr.value_number {n : Nat} (h : n < 2 ^ 256) :
    (Expr.number n).value frame = .ok (BitVec.ofNat 256 n) := by
  rw [Expr.value, checked_of_lt h]

theorem Expr.value_apply {operation : Operation} (hleft : left.value frame = .ok a)
    (hright : right.value frame = .ok b) :
    (Expr.apply operation left right).value frame = operation.apply a b := by
  rw [Expr.value, hleft, hright]
  rfl

theorem Condition.holds_less (hleft : left.value frame = .ok a)
    (hright : right.value frame = .ok b) :
    (Condition.less left right).holds frame = .ok (decide (a.toNat < b.toNat)) := by
  rw [Condition.holds, hleft, hright]
  rfl

theorem Condition.holds_different (hleft : left.value frame = .ok a)
    (hright : right.value frame = .ok b) :
    (Condition.different left right).holds frame = .ok (a != b) := by
  rw [Condition.holds, hleft, hright]
  rfl

theorem Change.apply_increment (h : frame.get name = .ok a) (hroom : a.toNat + 1 < 2 ^ 256) :
    (Change.increment name).apply frame = .ok (frame.set name (BitVec.ofNat 256 (a.toNat + 1))) :=
  bind_eq_ok.2 ⟨a, h, bind_eq_ok.2 ⟨_, checked_of_lt hroom, rfl⟩⟩

theorem Change.apply_shiftRight {bits : Nat} (h : frame.get name = .ok a) :
    (Change.shiftRight name bits).apply frame = .ok (frame.set name (a >>> bits)) :=
  bind_eq_ok.2 ⟨a, h, rfl⟩

theorem Change.apply_store {index value : Expr} (hindex : index.value frame = .ok a)
    (hvalue : value.value frame = .ok b) (hroom : a.toNat < frame.out.length) :
    (Change.store index value).apply frame =
      .ok { frame with out := frame.out.set a.toNat (lowByte b) } := by
  rw [Change.apply, hindex, hvalue]
  exact if_pos hroom

/-- If a property of frames and of the rounds that are left is kept by every round, and the
test tells whether a round is left, then the loop ends with no round left. -/
theorem exists_repeatWhile {Inv : Nat → Frame → Prop} {condition : Condition}
    {changes : List Change}
    (hholds : ∀ left frame, Inv left frame → condition.holds frame = .ok (decide (0 < left)))
    (hstep : ∀ left frame, Inv (left + 1) frame →
      ∃ next, Change.applyAll frame changes = .ok next ∧ Inv left next)
    {left rounds : Nat} (hroom : left ≤ rounds) (h : Inv left frame) :
    ∃ last, repeatWhile condition changes rounds frame = .ok last ∧ Inv 0 last := by
  induction left generalizing rounds frame with
  | zero =>
    refine ⟨frame, ?_, h⟩
    rw [repeatWhile.eq_def]
    exact bind_eq_ok.2 ⟨false, hholds 0 frame h, rfl⟩
  | succ left ih =>
    obtain ⟨next, hnext, hinv⟩ := hstep left frame h
    obtain ⟨rounds, rfl⟩ := Nat.exists_eq_add_of_le' hroom
    obtain ⟨last, hlast, hdone⟩ := ih (Nat.le_add_left left rounds) hinv
    refine ⟨last, ?_, hdone⟩
    rw [repeatWhile.eq_def]
    exact bind_eq_ok.2 ⟨true, hholds (left + 1) frame h, bind_eq_ok.2 ⟨next, hnext, hlast⟩⟩

/-! ## More rounds -/

section Stays

variable {α β : Type}

/-- The second outcome is the first one, unless that has used up its rounds. -/
def Stays (few more : Except Fault α) : Prop := few ≠ .error .outOfRounds → more = few

theorem Stays.refl (outcome : Except Fault α) : Stays outcome outcome := fun _ => rfl

theorem Stays.bind {few more : Except Fault α} {next next' : α → Except Fault β}
    (h : Stays few more) (hnext : ∀ a, Stays (next a) (next' a)) :
    Stays (few >>= next) (more >>= next') := by
  intro hends
  cases few with
  | error fault =>
    rw [h fun hfew => hends (by cases hfew; rfl)]
    rfl
  | ok a =>
    rw [h (by simp)]
    exact hnext a hends

theorem Stays.bind_right (outcome : Except Fault α) {next next' : α → Except Fault β}
    (hnext : ∀ a, Stays (next a) (next' a)) : Stays (outcome >>= next) (outcome >>= next') :=
  (Stays.refl outcome).bind hnext

variable {rounds more : Nat} {call call' : String → List Word → Except Fault Bytes}

theorem stays_repeatWhile (hmore : rounds ≤ more) (condition : Condition) (changes : List Change)
    (frame : Frame) :
    Stays (repeatWhile condition changes rounds frame)
      (repeatWhile condition changes more frame) := by
  induction rounds generalizing more frame with
  | zero =>
    rw [repeatWhile.eq_def, repeatWhile.eq_def condition changes more]
    refine .bind_right _ fun holds => ?_
    cases holds with
    | false => exact .refl _
    -- the rounds are used up
    | true => exact fun hends => absurd rfl hends
  | succ rounds ih =>
    obtain ⟨more, rfl⟩ := Nat.exists_eq_add_of_le' hmore
    rw [repeatWhile.eq_def, repeatWhile.eq_def condition changes (more + (rounds + 1))]
    refine .bind_right _ fun holds => ?_
    cases holds with
    | false => exact .refl _
    | true => exact .bind_right _ fun next => ih (Nat.le_add_left rounds more) next

theorem stays_data (hcall : ∀ name args, Stays (call name args) (call' name args)) (frame : Frame)
    (data : Data) : Stays (data.value call frame) (data.value call' frame) := by
  induction data with
  | lowByte word => exact .refl _
  | concat first second ihFirst ihSecond =>
    exact ihFirst.bind fun _ => ihSecond.bind fun _ => .refl _
  | call function arguments => exact .bind_right _ fun _ => hcall _ _

theorem stays_runBody (hmore : rounds ≤ more)
    (hcall : ∀ name args, Stays (call name args) (call' name args)) (body : List Statement)
    (frame : Frame) :
    Stays (runBody call rounds frame body) (runBody call' more frame body) := by
  induction body generalizing frame with
  | nil => exact .refl _
  | cons statement rest ih =>
    cases statement with
    | change step => exact .bind_right _ fun _ => ih _
    | ifReturn condition value =>
      refine .bind_right _ fun holds => ?_
      cases holds with
      | false => exact ih frame
      | true => exact stays_data hcall frame value
    | result value => exact stays_data hcall frame value
    | loop start condition step body =>
      exact .bind_right _ fun first =>
        (stays_repeatWhile hmore condition (body ++ [step]) first).bind fun _ => ih _

/-- A call with more rounds has the same result. -/
theorem stays_runCall (hmore : rounds ≤ more) (functions : List Function) (name : String)
    (arguments : List Word) :
    Stays (runCall rounds functions name arguments) (runCall more functions name arguments) := by
  induction functions generalizing name arguments with
  | nil => exact .refl _
  | cons function earlier ih =>
    rw [runCall, runCall]
    split
    · rw [Function.run, Function.run]
      split
      · exact stays_runBody hmore ih function.body _
      · exact .refl _
    · exact ih name arguments

end Stays

end ScaleCalls.Solidity.Word
