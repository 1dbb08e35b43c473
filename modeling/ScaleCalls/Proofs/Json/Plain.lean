import Mathlib.Algebra.Group.Int.Defs
import ScaleCalls.Json.Written
import ScaleCalls.Proofs.Metadata.Shape

/-!
# Values that a text can give

What is read from a text is bounded: its integers have at most 64 bits, the keys of an
object are different, and arrays and objects lie in each other only so deep. A value
without doubles that obeys these bounds is plain.

## Main definitions

- `Json.hasReal` — a double stands in a value
- `Json.Plain` — values without doubles within the bounds of a reader

## Main statements

- `Json.plain_of_value?` — what a text denotes is plain if it has no doubles
-/

namespace ScaleCalls.Json

mutual

/-- A double stands somewhere in a value. -/
def hasReal : Json → Bool
  | number (.real _) => true
  | array items => anyReal items
  | object members => anyRealMember members
  | null | bool _ | number (.integer _) | string _ => false

def anyReal : List Json → Bool
  | [] => false
  | item :: items => hasReal item || anyReal items

def anyRealMember : List (String × Json) → Bool
  | [] => false
  | (_, value) :: members => hasReal value || anyRealMember members

end

theorem anyReal_eq_any (items : List Json) : anyReal items = items.any hasReal := by
  induction items with
  | nil => rfl
  | cons item items ih => rw [anyReal, List.any_cons, ih]

theorem anyRealMember_eq_any (members : List (String × Json)) :
    anyRealMember members = members.any fun m => hasReal m.2 := by
  induction members with
  | nil => rfl
  | cons member members ih => rw [anyRealMember, List.any_cons, ih]

/-- Values without doubles within the bounds of a reader, where arrays and objects lie at
most so many levels deep. -/
inductive Plain : (depth : Nat) → Json → Prop
  | null {depth : Nat} : Plain depth .null
  | bool {depth : Nat} (b : Bool) : Plain depth (.bool b)
  | integer {depth : Nat} {i : Int} (hlow : -(2 ^ 63) ≤ i) (hhigh : i < 2 ^ 64) :
      Plain depth (.number (.integer i))
  | string {depth : Nat} (s : String) : Plain depth (.string s)
  | array {depth : Nat} {items : List Json} (hitems : ∀ item ∈ items, Plain depth item) :
      Plain (depth + 1) (.array items)
  | object {depth : Nat} {members : Members} (hkeys : (members.map Prod.fst).Nodup)
      (hmembers : ∀ m ∈ members, Plain depth m.2) : Plain (depth + 1) (.object members)

namespace Members

variable {members : Members} {key : String} {value : Json} {pairs : List (String × Json)}

theorem keys_put (members : Members) (key : String) (value : Json) :
    (members.put key value).map Prod.fst =
      if key ∈ members.map Prod.fst then members.map Prod.fst
      else members.map Prod.fst ++ [key] := by
  induction members with
  | nil => rfl
  | cons member members ih =>
    obtain ⟨k, v⟩ := member
    rw [put]
    by_cases hkey : k = key
    · simp [hkey]
    · rw [if_neg hkey, List.map_cons, ih]
      simp only [List.map_cons, List.mem_cons, Ne.symm hkey, false_or]
      split <;> rfl

theorem mem_of_mem_put {m : String × Json} (h : m ∈ members.put key value) :
    m ∈ members ∨ m = (key, value) := by
  induction members with
  | nil => exact .inr (List.mem_singleton.1 h)
  | cons member members ih =>
    obtain ⟨k, v⟩ := member
    rw [put] at h
    split at h
    · rename_i hkey
      obtain rfl | h := List.mem_cons.1 h
      · exact .inr (by rw [hkey])
      · exact .inl (List.mem_cons_of_mem _ h)
    · obtain rfl | h := List.mem_cons.1 h
      · exact .inl List.mem_cons_self
      · exact (ih h).imp_left (List.mem_cons_of_mem _)

theorem nodup_ofPairs (pairs : List (String × Json)) : ((ofPairs pairs).map Prod.fst).Nodup := by
  refine List.foldlRecOn (motive := fun members : Members => (members.map Prod.fst).Nodup)
    pairs _ List.nodup_nil fun members h pair _ => ?_
  rw [keys_put]
  split
  · exact h
  · rename_i hnew
    exact List.nodup_append.2 ⟨h, List.nodup_singleton _, fun a ha b hb heq =>
      hnew (List.mem_singleton.1 hb ▸ heq ▸ ha)⟩

/-- The members of an object are among the pairs that write it. -/
theorem mem_of_mem_ofPairs {m : String × Json} (h : m ∈ ofPairs pairs) : m ∈ pairs := by
  have hall : ∀ m ∈ ofPairs pairs, m ∈ pairs :=
    List.foldlRecOn (motive := fun members : Members => ∀ m ∈ members, m ∈ pairs) pairs _
      (fun m hm => by cases hm) fun members hmembers pair hpair m hm => by
        obtain hm | rfl := mem_of_mem_put hm
        · exact hmembers m hm
        · exact hpair
  exact hall m h

end Members

namespace Numeral

theorem collect_lt {significand : Nat} (cs : List Char) (h : significand < Text.limit64) :
    (collect significand cs).1 < Text.limit64 := by
  induction cs generalizing significand with
  | nil => exact h
  | cons c cs ih =>
    rw [collect]
    split
    · exact ih ‹_›
    · exact h

theorem not_real?_integer {negative : Bool} {significand : Nat} {exp i : Int} :
    real? negative significand exp ≠ some (.integer i) := by
  intro h
  obtain ⟨x, -, hx⟩ := Option.map_eq_some_iff.1 h
  cases hx

/-- An integer that is denoted has at most 64 bits. -/
theorem integer_bounds {n : Numeral} {i : Int} (h : n.value? = some (.integer i)) :
    -(2 ^ 63) ≤ i ∧ i < 2 ^ 64 := by
  have hwhole : (collect 0 n.whole).1 < 2 ^ 64 := collect_lt n.whole (by decide)
  rw [value?] at h
  generalize collect 0 n.whole = parts at h hwhole
  obtain ⟨whole, dropped⟩ := parts
  dsimp only at h hwhole
  split at h
  · split at h
    · cases h
      omega
    · split at h
      · rename_i hrange
        cases h
        have hlow : whole ≤ 2 ^ 63 := hrange.2
        omega
      · exact absurd h not_real?_integer
  · exact absurd h not_real?_integer

end Numeral

mutual

/-- What a written value denotes is plain, as far as it has no doubles. -/
theorem plain_of_value? {depth : Nat} {value : Json} : (written : Written) →
    written.value? depth = some value → value.hasReal = false → value.Plain depth
  | .null, h, _ => by
    cases h
    exact .null
  | .bool b, h, _ => by
    cases h
    exact .bool b
  | .number n, h, hreal => by
    obtain ⟨number, hnumber, rfl⟩ := Option.map_eq_some_iff.1 h
    cases number with
    | integer i =>
      obtain ⟨hlow, hhigh⟩ := Numeral.integer_bounds hnumber
      exact .integer hlow hhigh
    | real x => cases hreal
  | .string pieces, h, _ => by
    obtain ⟨s, -, rfl⟩ := Option.map_eq_some_iff.1 h
    exact .string s
  | .array items, h, hreal => by
    cases depth with
    | zero => cases h
    | succ depth =>
      obtain ⟨values, hvalues, rfl⟩ := Option.map_eq_some_iff.1 h
      rw [hasReal, anyReal_eq_any, List.any_eq_false] at hreal
      exact .array fun value hvalue => plain_of_values? items hvalues value hvalue
        (Bool.eq_false_iff.2 (hreal value hvalue))
  | .object members, h, hreal => by
    cases depth with
    | zero => cases h
    | succ depth =>
      obtain ⟨pairs, hpairs, rfl⟩ := Option.map_eq_some_iff.1 h
      rw [hasReal, anyRealMember_eq_any, List.any_eq_false] at hreal
      exact .object (Members.nodup_ofPairs pairs) fun m hm => plain_of_pairs? members hpairs m
        (Members.mem_of_mem_ofPairs hm) (Bool.eq_false_iff.2 (hreal m hm))

theorem plain_of_values? {depth : Nat} {values : List Json} : (items : List Written) →
    Written.values? depth items = some values →
      ∀ value ∈ values, value.hasReal = false → value.Plain depth
  | [], h, value, hvalue, _ => by
    cases h
    cases hvalue
  | item :: items, h, value, hvalue, hreal => by
    obtain ⟨first, hfirst, h⟩ := Option.bind_eq_some_iff.1 h
    obtain ⟨rest, hrest, h⟩ := Option.bind_eq_some_iff.1 h
    cases h
    obtain rfl | hvalue := List.mem_cons.1 hvalue
    · exact plain_of_value? item hfirst hreal
    · exact plain_of_values? items hrest value hvalue hreal

theorem plain_of_pairs? {depth : Nat} {pairs : List (String × Json)} :
    (members : List (List Piece × Written)) → Written.pairs? depth members = some pairs →
      ∀ p ∈ pairs, p.2.hasReal = false → p.2.Plain depth
  | [], h, p, hp, _ => by
    cases h
    cases hp
  | (key, value) :: members, h, p, hp, hreal => by
    obtain ⟨k, -, h⟩ := Option.bind_eq_some_iff.1 h
    obtain ⟨first, hfirst, h⟩ := Option.bind_eq_some_iff.1 h
    obtain ⟨rest, hrest, h⟩ := Option.bind_eq_some_iff.1 h
    cases h
    obtain rfl | hp := List.mem_cons.1 hp
    · exact plain_of_value? value hfirst hreal
    · exact plain_of_pairs? members hrest p hp hreal

end

end ScaleCalls.Json
