import ScaleCalls.Proofs.Scale.Compact
import ScaleCalls.Proofs.Solidity.Words
import ScaleCalls.Solidity.CodecLibrary

/-!
# Compact integers in the codec library

The library counts the bytes of a number by shifting it until nothing is left, and writes
them one by one. Both loops are gone through with an invariant that counts the rounds left.
What comes out are the bytes of `Scale.compact`, for every number that a word can hold.

## Main definitions

- `CodecLibrary.Filling`, `CodecLibrary.Counting` — the invariants of the two loops

## Main statements

- `CodecLibrary.runCall_littleEndian` — the bytes of a number in a given width
- `CodecLibrary.runBody_counted` — behind a count of the bytes, of which there are at least four
- `CodecLibrary.runCall_compactUint` — the bytes of a compact integer, and no fault on the way
-/

namespace ScaleCalls.Solidity

namespace CodecLibrary

open Word

variable {frame : Frame} {v len : Word} {left rounds : Nat}

/-! ## Bytes, least significant first -/

/-- The byte string of `_le` on its way: the bytes up to the index are there. -/
structure Filling (v len : Word) (left : Nat) (frame : Frame) : Prop where
  number : frame.get "v" = .ok v
  width : frame.get "len" = .ok len
  filled : ∃ i : Word, frame.get "i" = .ok i ∧ i.toNat + left = len.toNat ∧
    frame.out = Scale.littleEndian i.toNat v.toNat ++ List.replicate left 0

theorem toNat_shiftRight_bytes (v : Word) {k : Nat} (h : 8 * k < 2 ^ 256) :
    (v >>> BitVec.ofNat 256 (8 * k)).toNat = v.toNat / 256 ^ k := by
  rw [BitVec.ushiftRight_eq', BitVec.toNat_ushiftRight, BitVec.toNat_ofNat, Nat.mod_eq_of_lt h,
    Nat.shiftRight_eq_div_pow, Nat.pow_mul]

theorem Filling.step (hlen : 8 * len.toNat < 2 ^ 256) (h : Filling v len (left + 1) frame) :
    ∃ next, Change.applyAll frame [.store (.var "i") (.apply .shiftRight (.var "v")
        (.apply .times (.number 8) (.var "i"))), .increment "i"] = .ok next ∧
      Filling v len left next := by
  obtain ⟨i, hi, hleft, hout⟩ := h.filled
  have hbits : (Expr.apply .times (.number 8) (.var "i")).value frame =
      .ok (BitVec.ofNat 256 (8 * i.toNat)) := by
    rw [Expr.value_apply (Expr.value_number (by decide)) (Expr.value_var hi)]
    exact checked_of_lt (n := 8 * i.toNat) (by omega)
  have hvalue : (Expr.apply .shiftRight (.var "v")
      (.apply .times (.number 8) (.var "i"))).value frame =
        .ok (v >>> BitVec.ofNat 256 (8 * i.toNat)) :=
    Expr.value_apply h.number hbits
  -- a round is left, so the index is still inside the byte string
  have hstore := Change.apply_store (Expr.value_var hi) hvalue
    (by rw [hout, List.length_append, Scale.length_littleEndian, List.length_replicate]; omega)
  refine ⟨_, bind_eq_ok.2 ⟨_, hstore, bind_eq_ok.2
    ⟨_, Change.apply_increment (a := i) hi (by omega), rfl⟩⟩, ?_, ?_, ?_⟩
  · rw [Frame.get_set, if_neg (by decide)]
    exact h.number
  · rw [Frame.get_set, if_neg (by decide)]
    exact h.width
  · refine ⟨_, by rw [Frame.get_set, if_pos rfl], ?_⟩
    rw [BitVec.toNat_ofNat, Nat.mod_eq_of_lt (by omega), Frame.out_set, hout,
      Scale.littleEndian_succ_eq_append, List.append_assoc, List.replicate_succ]
    refine ⟨by omega, ?_⟩
    dsimp only
    rw [List.set_append_right _ _ (by simp), Scale.length_littleEndian, Nat.sub_self,
      List.set_cons_zero, lowByte, toNat_shiftRight_bytes _ (by omega)]
    rfl

theorem Filling.holds (h : Filling v len left frame) :
    (Condition.less (.var "i") (.var "len")).holds frame = .ok (decide (0 < left)) := by
  obtain ⟨i, hi, hleft, -⟩ := h.filled
  rw [Condition.holds_less (Expr.value_var hi) (Expr.value_var h.width)]
  congr 2
  exact propext (by omega)

theorem runCall_littleEndian (v : Word) (hrounds : len.toNat ≤ rounds)
    (hlen : 8 * len.toNat < 2 ^ 256) :
    runCall rounds [littleEndian] "_le" [v, len] =
      .ok (Scale.littleEndian len.toNat v.toNat) := by
  have hstart : Filling v len len.toNat (Frame.set
      ⟨[("v", v), ("len", len)], List.replicate len.toNat 0⟩ "i" 0) :=
    ⟨rfl, rfl, 0, rfl, Nat.zero_add _, rfl⟩
  obtain ⟨last, hlast, hfilled⟩ := exists_repeatWhile (fun _ _ h => h.holds)
    (fun _ _ h => h.step hlen) hrounds hstart
  obtain ⟨i, -, hi, hout⟩ := hfilled.filled
  have hresult : last.out = Scale.littleEndian len.toNat v.toNat := by
    rw [hout, List.replicate_zero, List.append_nil, show i.toNat = len.toNat by omega]
  rw [← hresult]
  exact bind_eq_ok.2 ⟨_, rfl, bind_eq_ok.2 ⟨_, rfl, bind_eq_ok.2 ⟨last, hlast, rfl⟩⟩⟩

theorem value_call_littleEndian (hrounds : 32 ≤ rounds) {value width : Word.Expr}
    (hvalue : value.value frame = .ok v) (hwidth : width.value frame = .ok len)
    (hlen : len.toNat ≤ 32) :
    Data.value (runCall rounds [littleEndian]) frame (.call "_le" [value, width]) =
      .ok (Scale.littleEndian len.toNat v.toNat) :=
  bind_eq_ok.2 ⟨[v, len], mapM_eq_ok.2 (.cons hvalue (.cons hwidth .nil)),
    runCall_littleEndian v (by omega) (by omega)⟩

/-! ## Compact integers -/

/-- The loop of `compactUint` on its way: `len` bytes of the number are counted. -/
structure Counting (v : Word) (left : Nat) (frame : Frame) : Prop where
  number : frame.get "v" = .ok v
  rest : ∃ t : Word, frame.get "t" = .ok t ∧ (Nat.digits 256 t.toNat).length = left
  counted : ∃ len : Word, frame.get "len" = .ok len ∧
    len.toNat + left = (Nat.digits 256 v.toNat).length

theorem length_digits_word (v : Word) : (Nat.digits 256 v.toNat).length ≤ 32 := by
  rw [Nat.digits_length_le_iff (by decide)]
  exact v.isLt

theorem length_digits_pos_iff (t : Word) : 0 < (Nat.digits 256 t.toNat).length ↔ t ≠ 0 := by
  rw [List.length_pos_iff, Nat.digits_ne_nil_iff_ne_zero, ne_eq, ne_eq, ← BitVec.toNat_inj]
  rfl

theorem Counting.holds (h : Counting v left frame) :
    (Condition.different (.var "t") (.number 0)).holds frame = .ok (decide (0 < left)) := by
  obtain ⟨t, ht, rfl⟩ := h.rest
  rw [Condition.holds_different (Expr.value_var ht) (Expr.value_number (by decide))]
  congr 1
  rw [Bool.eq_iff_iff, bne_iff_ne, decide_eq_true_iff, length_digits_pos_iff]
  rfl

theorem Counting.step (h : Counting v (left + 1) frame) : ∃ next,
    Change.applyAll frame [.increment "len", .shiftRight "t" 8] = .ok next ∧
      Counting v left next := by
  obtain ⟨t, ht, hleft⟩ := h.rest
  obtain ⟨len, hlen, hcounted⟩ := h.counted
  -- a word has no more than 32 bytes, so the count has room
  have hword := length_digits_word v
  have hnonzero : 0 < t.toNat :=
    BitVec.toNat_pos_of_ne_zero ((length_digits_pos_iff t).1 (by omega))
  have ht' : (frame.set "len" (BitVec.ofNat 256 (len.toNat + 1))).get "t" = .ok t := by
    rw [Frame.get_set, if_neg (by decide), ht]
  refine ⟨_, bind_eq_ok.2 ⟨_, Change.apply_increment hlen (by omega), bind_eq_ok.2
    ⟨_, Change.apply_shiftRight ht', rfl⟩⟩, ?_, ⟨t >>> 8, ?_, ?_⟩,
    ⟨BitVec.ofNat 256 (len.toNat + 1), ?_, ?_⟩⟩
  · rw [Frame.get_set, if_neg (by decide), Frame.get_set, if_neg (by decide), h.number]
  · rw [Frame.get_set, if_pos rfl]
  · rw [Nat.digits_def' (by decide) hnonzero, List.length_cons] at hleft
    rw [BitVec.toNat_ushiftRight, Nat.shiftRight_eq_div_pow]
    exact Nat.succ.inj hleft
  · rw [Frame.get_set, if_neg (by decide), Frame.get_set, if_pos rfl]
  · rw [BitVec.toNat_ofNat, Nat.mod_eq_of_lt (by omega)]
    omega

theorem toNat_shiftLeft_two (hv : 4 * v.toNat < 2 ^ 256) :
    (v <<< (2 : Word)).toNat = 4 * v.toNat := by
  rw [BitVec.shiftLeft_eq', BitVec.toNat_shiftLeft, Nat.shiftLeft_eq,
    show (2 : Word).toNat = 2 from rfl, Nat.mod_eq_of_lt (by omega), Nat.mul_comm]

/-- Shifting by two makes room for the mode. -/
theorem toNat_shiftLeft_or {mode : Word} (hv : 4 * v.toNat < 2 ^ 256) (hmode : mode.toNat < 4) :
    ((v <<< (2 : Word)) ||| mode).toNat = 4 * v.toNat + mode.toNat := by
  rw [BitVec.toNat_or, toNat_shiftLeft_two hv]
  exact (Nat.two_pow_add_eq_or_of_lt (i := 2) hmode v.toNat).symm

/-- A number below the limit of a mode is written in as many bytes as the mode has. -/
theorem runBody_shortMode (hrounds : 32 ≤ rounds) (hv : frame.get "v" = .ok v) {bits width : Nat}
    (hbits : bits < 256) (hwidth : width ≤ 32) {value : Word.Expr} {word : Word}
    (hvalue : value.value frame = .ok word) (rest : List Statement) :
    runBody (runCall rounds [littleEndian]) rounds frame (shortMode bits value width :: rest) =
      if v.toNat < 2 ^ bits then .ok (Scale.littleEndian width word.toNat)
      else runBody (runCall rounds [littleEndian]) rounds frame rest := by
  have hlimit : ((1 : Word) <<< BitVec.ofNat 256 bits).toNat = 2 ^ bits := by
    have hpow : 2 ^ bits < 2 ^ 256 := Nat.pow_lt_pow_right (by decide) hbits
    rw [BitVec.shiftLeft_eq', BitVec.toNat_shiftLeft, BitVec.toNat_ofNat,
      Nat.mod_eq_of_lt (Nat.lt_trans hbits (by decide)), Nat.shiftLeft_eq,
      show (1 : Word).toNat = 1 from rfl, Nat.one_mul, Nat.mod_eq_of_lt hpow]
  have hbelow : (Condition.less (.var "v")
      (.apply .shiftLeft (.number 1) (.number bits))).holds frame =
        .ok (decide (v.toNat < 2 ^ bits)) := by
    rw [← hlimit]
    exact Condition.holds_less (Expr.value_var hv) (Expr.value_apply
      (Expr.value_number (by decide)) (Expr.value_number (Nat.lt_trans hbits (by decide))))
  have hlen : (BitVec.ofNat 256 width).toNat = width := by
    rw [BitVec.toNat_ofNat, Nat.mod_eq_of_lt (by omega)]
  have hcall := value_call_littleEndian hrounds hvalue
    (Expr.value_number (n := width) (by omega)) (by omega)
  rw [hlen] at hcall
  rw [shortMode, runBody, hbelow]
  change (if decide (v.toNat < 2 ^ bits) = true then _ else _) = _
  rw [hcall]
  simp only [decide_eq_true_iff]

/-- Behind the short modes: the bytes are counted and written behind their number, and there
are four of them at least. -/
theorem runBody_counted (hrounds : 32 ≤ rounds) (h : 2 ^ 30 ≤ v.toNat) :
    runBody (runCall rounds [littleEndian]) rounds ⟨[("v", v)], []⟩ (compactUint.body.drop 3) =
      .ok (Scale.compact v.toNat) := by
  have hstart : Counting v (Nat.digits 256 v.toNat).length
      ((Frame.set ⟨[("v", v)], []⟩ "len" 0).set "t" v) :=
    ⟨rfl, ⟨v, rfl, rfl⟩, ⟨0, rfl, Nat.zero_add _⟩⟩
  have hmost := length_digits_word v
  have hleast := Scale.four_le_length_digits h
  obtain ⟨last, hlast, hcounted⟩ := exists_repeatWhile (fun _ _ h => h.holds)
    (fun _ _ h => h.step) (Nat.le_trans hmost hrounds) hstart
  obtain ⟨len, hlen, hcount⟩ := hcounted.counted
  rw [Nat.add_zero] at hcount
  rw [← hcount] at hmost hleast
  -- the short modes are behind us, and the difference cannot underflow
  have hexcess : (Expr.apply .minus (.var "len") (.number 4)).value last = .ok (len - 4) := by
    rw [Expr.value_apply (Expr.value_var hlen) (Expr.value_number (by decide))]
    exact if_pos hleast
  have hfour : (len - 4).toNat = len.toNat - 4 := BitVec.toNat_sub_of_le hleast
  have hheader : lowByte (((len - 4) <<< (2 : Word)) ||| 3) =
      UInt8.ofNat (4 * (len.toNat - 4) + 3) := by
    rw [lowByte, toNat_shiftLeft_or (by omega) (by decide), hfour]
    rfl
  have hbytes := value_call_littleEndian hrounds (Expr.value_var hcounted.number)
    (Expr.value_var hlen) hmost
  rw [Scale.compact_of_le h, ← hcount, ← hheader]
  refine bind_eq_ok.2 ⟨_, rfl, bind_eq_ok.2 ⟨_, rfl, bind_eq_ok.2 ⟨last, hlast, ?_⟩⟩⟩
  exact bind_eq_ok.2 ⟨_, bind_eq_ok.2 ⟨_, Expr.value_apply (Expr.value_apply hexcess
    (Expr.value_number (by decide))) (Expr.value_number (by decide)), rfl⟩,
    bind_eq_ok.2 ⟨_, hbytes, rfl⟩⟩

theorem runCall_compactUint_of_le (hrounds : 32 ≤ rounds) (v : Word) :
    runCall rounds [compactUint, littleEndian] "compactUint" [v] =
      .ok (Scale.compact v.toNat) := by
  let above : Word.Expr := .apply .shiftLeft (.var "v") (.number 2)
  have hv : (Frame.mk [("v", v)] []).get "v" = .ok v := rfl
  have habove : above.value (Frame.mk [("v", v)] []) = .ok (v <<< (2 : Word)) :=
    Expr.value_apply (Expr.value_var hv) (Expr.value_number (by decide))
  have hor : ∀ mode < 4, (Expr.apply .or above (.number mode)).value (Frame.mk [("v", v)] []) =
      .ok ((v <<< (2 : Word)) ||| BitVec.ofNat 256 mode) := fun mode hmode =>
    Expr.value_apply habove (Expr.value_number (by omega))
  change runBody (runCall rounds [littleEndian]) rounds (Frame.mk [("v", v)] [])
    (shortMode 6 above 1 :: shortMode 14 (.apply .or above (.number 1)) 2 ::
      shortMode 30 (.apply .or above (.number 2)) 4 :: compactUint.body.drop 3) = _
  rw [runBody_shortMode hrounds hv (by decide) (by decide) habove,
    runBody_shortMode hrounds hv (by decide) (by decide) (hor 1 (by decide)),
    runBody_shortMode hrounds hv (by decide) (by decide) (hor 2 (by decide))]
  by_cases hlong : 2 ^ 30 ≤ v.toNat
  · rw [if_neg (by omega), if_neg (by omega), if_neg (by omega), runBody_counted hrounds hlong]
  · rw [Scale.compact_eq_ite, toNat_shiftLeft_two (by omega),
      toNat_shiftLeft_or (by omega) (by decide), toNat_shiftLeft_or (by omega) (by decide)]
    split
    · rfl
    · split
      · rfl
      · rw [if_pos (by omega), if_pos (by omega)]
        rfl

/-- The library writes the bytes of a compact integer. No product, difference or count on the
way is out of range, and no byte is stored outside of the string: a run may be cut off where
it has too few rounds, and nothing else can go wrong. -/
theorem runCall_compactUint (v : Word) :
    (∀ rounds, 32 ≤ rounds → runCall rounds [compactUint, littleEndian] "compactUint" [v] =
      .ok (Scale.compact v.toNat)) ∧
    ∀ rounds fault, runCall rounds [compactUint, littleEndian] "compactUint" [v] = .error fault →
      fault = .outOfRounds := by
  refine ⟨fun rounds hrounds => runCall_compactUint_of_le hrounds v, fun rounds fault hfault => ?_⟩
  by_contra hother
  -- with more rounds the fault would be there still
  have hstays := stays_runCall (Nat.le_max_left rounds 32) [compactUint, littleEndian]
    "compactUint" [v] (by rw [hfault]; simpa using hother)
  rw [hfault, runCall_compactUint_of_le (Nat.le_max_right rounds 32)] at hstays
  cases hstays

/-- The first number with its bytes behind their count. -/
theorem runCall_compactUint_limit :
    runCall 32 [compactUint, littleEndian] "compactUint" [1073741824] = .ok [3, 0, 0, 0, 64] :=
  (runCall_compactUint 1073741824).1 32 (by decide)

end CodecLibrary

end ScaleCalls.Solidity
