import ScaleCalls.Proofs.Scale.Compact
import ScaleCalls.Types.Descriptor

/-!
# Values without parts

Booleans, integers, byte strings and texts, the kinds that they may have, and their
bytes under a kind. The bytes are given by the layout rules alone: two's complement,
byte by byte, for integers, the digits to the base 256 for long compact integers.

## Main definitions

- `Scalar` — the values, `Scalar.Typed` — the kinds that they may have
- `Scalar.scale` — the bytes of a value

## Main statements

- `Scalar.Typed.scale_append_inj` — values of one kind are told apart, and from what follows
-/

namespace ScaleCalls

/-- A count that a machine word can hold, as every length is in a running program. -/
def Addressable (count : Nat) : Prop := count < 2 ^ 64

theorem Addressable.lt_bound {count : Nat} (h : Addressable count) : count < 256 ^ 67 :=
  Nat.lt_trans h (by decide)

/-- The bytes of a text. -/
def utf8 (text : String) : Bytes := text.toUTF8.toList

/-- A value without parts. -/
inductive Scalar where
  | bool (b : Bool)
  | nat (n : Nat)
  | int (i : Int)
  | bytes (b : Bytes)
  | text (s : String)
  deriving Repr, DecidableEq

namespace Scalar

/-- The kinds that a value may have, with the range that it must keep to. -/
inductive Typed : TypeKind → Scalar → Prop
  | bool (b : Bool) : Typed (.primitive .bool) (.bool b)
  | nat {kind : Primitive} {bits n : Nat} (hbits : kind.bits? = some bits)
      (hsign : kind.isSigned = false) (hn : n < 2 ^ bits) : Typed (.primitive kind) (.nat n)
  | int {kind : Primitive} {bits : Nat} {i : Int} (hbits : kind.bits? = some bits)
      (hsign : kind.isSigned) (hi : -2 ^ (bits - 1) ≤ i ∧ i < 2 ^ (bits - 1)) :
      Typed (.primitive kind) (.int i)
  | compact {width : CompactWidth} {n : Nat} (hn : n < 2 ^ width.bits) :
      Typed (.compact width) (.nat n)
  | bytes {b : Bytes} (hlength : Addressable b.length) : Typed (.primitive .bytes) (.bytes b)
  | text {s : String} (hlength : Addressable (utf8 s).length) : Typed (.primitive .str) (.text s)
  | accountId {b : Bytes} (hlength : b.length = 32) : Typed (.primitive .accountId32) (.bytes b)
  | address {b : Bytes} (hlength : b.length = 32) : Typed (.primitive .multiAddressId32) (.bytes b)
  | fixedBytes {b : Bytes} {len : Nat} (hlength : b.length = len) :
      Typed (.fixedBytes len) (.bytes b)

/-- The bytes of a value. -/
def scale : TypeKind → Scalar → Bytes
  | .primitive .bool, .bool b => [if b then 1 else 0]
  | .primitive .bytes, .bytes b => Scale.compactOf b.length ++ b
  | .primitive .str, .text s => Scale.compactOf (utf8 s).length ++ utf8 s
  | .primitive .accountId32, .bytes b => b
  | .primitive .multiAddressId32, .bytes b => 0 :: b
  | .primitive kind, .nat n => Scale.bytesOf (kind.bits?.getD 0 / 8) n
  | .primitive kind, .int i => Scale.bytesOf (kind.bits?.getD 0 / 8) i
  | .compact _, .nat n => Scale.compactOf n
  | .fixedBytes _, .bytes b => b
  | _, _ => []

end Scalar

theorem Primitive.exists_width {kind : Primitive} {bits : Nat} (h : kind.bits? = some bits) :
    ∃ width, 0 < width ∧ bits = 8 * width := by
  refine ⟨bits / 8, ?_⟩
  cases kind <;> cases h <;> decide

theorem byteArray_toList_loop (b : ByteArray) (i : Nat) (acc : List UInt8) :
    ByteArray.toList.loop b i acc = acc.reverse ++ b.data.toList.drop i := by
  induction i, acc using ByteArray.toList.loop.induct b with
  | case1 i acc hlt ih =>
    have hdrop : b.data.toList.drop i = b.get! i :: b.data.toList.drop (i + 1) := by
      rw [List.drop_eq_getElem_cons (by exact hlt)]
      simp only [ByteArray.get!, Array.getElem_toList]
      rw [getElem!_pos b.data i hlt]
    rw [ByteArray.toList.loop, if_pos hlt, ih, hdrop]
    simp
  | case2 i acc hge =>
    rw [ByteArray.toList.loop, if_neg hge, List.drop_eq_nil_of_le (Nat.le_of_not_lt hge),
      List.append_nil]

theorem utf8_eq (text : String) : utf8 text = text.toUTF8.data.toList := by
  rw [utf8, ByteArray.toList, byteArray_toList_loop]
  rfl

theorem utf8_inj {s t : String} (h : utf8 s = utf8 t) : s = t := by
  rw [utf8_eq, utf8_eq, Array.toList_inj] at h
  exact String.toByteArray_inj.1 (ByteArray.ext h)

namespace Scalar

theorem scale_nat {kind : Primitive} {bits : Nat} (hbits : kind.bits? = some bits) (n : Nat) :
    scale (.primitive kind) (.nat n) = Scale.uint n bits := by
  rw [Scale.uint_eq_bytesOf]
  cases kind <;> cases hbits <;> rfl

theorem scale_int {kind : Primitive} {bits : Nat} (hbits : kind.bits? = some bits) (i : Int) :
    scale (.primitive kind) (.int i) = Scale.int i bits := by
  rw [Scale.int_eq_bytesOf]
  cases kind <;> cases hbits <;> rfl

theorem counted_append_inj {x y s t : Bytes} (hx : Addressable x.length)
    (hy : Addressable y.length)
    (h : Scale.compactOf x.length ++ x ++ s = Scale.compactOf y.length ++ y ++ t) :
    x = y ∧ s = t := by
  rw [← Scale.compact_eq_compactOf, ← Scale.compact_eq_compactOf, List.append_assoc,
    List.append_assoc] at h
  obtain ⟨hlength, hrest⟩ := Scale.compact_append_inj hx.lt_bound hy.lt_bound h
  exact List.append_inj hrest hlength

/-- Values of one kind have different bytes, and none has the front of another's. -/
theorem Typed.scale_append_inj {kind : TypeKind} {a b : Scalar} (ha : a.Typed kind)
    (hb : b.Typed kind) {s t : Bytes} (h : scale kind a ++ s = scale kind b ++ t) :
    a = b ∧ s = t := by
  cases ha with
  | bool x =>
    cases hb with
    | bool y => cases x <;> cases y <;> simp_all [scale]
    | nat hbits | int hbits => cases hbits
  | nat hbits hsign hm =>
    obtain ⟨width, -, rfl⟩ := Primitive.exists_width hbits
    cases hb with
    | nat hbits' hsign' hn =>
      rw [hbits] at hbits'
      cases hbits'
      rw [scale_nat hbits, scale_nat hbits] at h
      -- both take the same room, so the tails start at the same place
      obtain ⟨hbytes, rfl⟩ := List.append_inj h (by simp [Scale.uint])
      rw [Nat.pow_mul] at hm hn
      have := Scale.littleEndian_inj (by simpa using hm) (by simpa using hn) hbytes
      exact ⟨congrArg Scalar.nat this, rfl⟩
    | int hbits' hsign' => simp [hsign] at hsign'
    | bool | bytes | text | accountId | address => cases hbits
  | int hbits hsign hi =>
    obtain ⟨width, hwidth, rfl⟩ := Primitive.exists_width hbits
    cases hb with
    | int hbits' hsign' hj =>
      rw [hbits] at hbits'
      cases hbits'
      rw [scale_int hbits, scale_int hbits] at h
      obtain ⟨hbytes, rfl⟩ := List.append_inj h (by simp [Scale.int])
      exact ⟨congrArg Scalar.int (Scale.int_inj hwidth hi hj hbytes), rfl⟩
    | nat hbits' hsign' => simp [hsign] at hsign'
    | bool | bytes | text | accountId | address => cases hbits
  | compact hm =>
    cases hb with
    | compact hn =>
      simp only [scale, ← Scale.compact_eq_compactOf] at h
      obtain ⟨rfl, hrest⟩ := Scale.compact_append_inj (Scale.lt_bound_of_lt_width hm)
        (Scale.lt_bound_of_lt_width hn) h
      exact ⟨rfl, hrest⟩
  | bytes hx =>
    cases hb with
    | bytes hy =>
      obtain ⟨rfl, rfl⟩ := counted_append_inj hx hy h
      exact ⟨rfl, rfl⟩
    | nat hbits | int hbits => cases hbits
  | text hx =>
    cases hb with
    | text hy =>
      obtain ⟨htext, rfl⟩ := counted_append_inj hx hy h
      exact ⟨congrArg Scalar.text (utf8_inj htext), rfl⟩
    | nat hbits | int hbits => cases hbits
  | accountId hx =>
    cases hb with
    | accountId hy =>
      obtain ⟨rfl, rfl⟩ := List.append_inj h (hx.trans hy.symm)
      exact ⟨rfl, rfl⟩
    | nat hbits | int hbits => cases hbits
  | address hx =>
    cases hb with
    | address hy =>
      obtain ⟨rfl, rfl⟩ := List.append_inj (List.cons.inj h).2 (hx.trans hy.symm)
      exact ⟨rfl, rfl⟩
    | nat hbits | int hbits => cases hbits
  | fixedBytes hx =>
    cases hb with
    | fixedBytes hy =>
      obtain ⟨rfl, rfl⟩ := List.append_inj h (hx.trans hy.symm)
      exact ⟨rfl, rfl⟩

end Scalar

end ScaleCalls
