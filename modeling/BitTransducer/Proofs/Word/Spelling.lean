import Mathlib.Data.List.Basic
import BitTransducer.Word

/-! # The bits that words spell

`Words.bit` is the bit of a sequence of words at an index, zero past the end, and
`Words.toBits_eq_map` says that the sequence spells these bits in order. A word `Fits` a count when
it is what a write of `count` bits expects: no more bits than a word has, and zeros after them.

Main statements: `Words.take_toBits` (the first bits of a sequence of words),
`Words.ofBytes_toBytes` (words and their big-endian bytes spell the same bits). -/

namespace BitTransducer

namespace Bits

theorem le_ceilDiv_mul {unit : Nat} (count : Nat) (h : 0 < unit) :
    count ≤ ceilDiv count unit * unit := by
  have := Nat.div_add_mod (count + unit - 1) unit
  have := Nat.mod_lt (count + unit - 1) h
  rw [ceilDiv, Nat.mul_comm]
  omega

theorem ceilDiv_mul_lt {unit : Nat} (count : Nat) (h : 0 < unit) :
    ceilDiv count unit * unit < count + unit := by
  have := Nat.div_mul_le_self (count + unit - 1) unit
  rw [ceilDiv]
  omega

theorem ceilDiv_le_iff {count unit limit : Nat} (h : 0 < unit) :
    ceilDiv count unit ≤ limit ↔ count ≤ limit * unit := by
  rw [ceilDiv, Nat.div_le_iff_le_mul h, Nat.mul_comm]
  omega

theorem ceilDiv_eq {unit : Nat} (count : Nat) (h : 0 < unit) :
    ceilDiv count unit = count / unit + if count % unit = 0 then 0 else 1 := by
  have hc := Nat.div_add_mod count unit
  have hlt := Nat.mod_lt count h
  rw [Nat.mul_comm] at hc
  split
  · rw [Nat.add_zero]
    exact Nat.div_eq_of_lt_le (by omega) (by rw [Nat.succ_mul]; omega)
  · refine Nat.div_eq_of_lt_le ?_ ?_ <;> simp only [Nat.succ_mul] <;> omega

theorem ceilDiv_add_mul {unit : Nat} (count n : Nat) (h : 0 < unit) :
    ceilDiv (count + n * unit) unit = ceilDiv count unit + n := by
  rw [ceilDiv_eq _ h, ceilDiv_eq _ h, Nat.add_mul_div_right _ _ h, Nat.add_mul_mod_self_right]
  omega

theorem ceilDiv_mul_self {unit : Nat} (count : Nat) (h : 0 < unit) :
    ceilDiv (count * unit) unit = count :=
  Nat.le_antisymm ((ceilDiv_le_iff h).2 (Nat.le_refl _))
    (Nat.le_of_mul_le_mul_right (le_ceilDiv_mul _ h) h)

theorem length_padTo (unit : Nat) (bits : List Bool) (h : 0 < unit) :
    (padTo unit bits).length = ceilDiv bits.length unit * unit := by
  have := le_ceilDiv_mul bits.length h
  simp only [padTo, List.length_append, List.length_replicate]
  omega

theorem ofBytes_take (bytes : List UInt8) (n : Nat) :
    ofBytes (bytes.take n) = (ofBytes bytes).take (8 * n) := by
  induction bytes generalizing n with
  | nil => simp
  | cons byte bytes ih =>
    cases n with
    | zero => simp
    | succ n =>
      rw [List.take_succ_cons, ofBytes_cons, ofBytes_cons, ih, Nat.mul_succ, Nat.add_comm,
        List.take_append, length_ofByte, Nat.add_sub_cancel_left,
        (ofByte byte).take_of_length_le (by rw [length_ofByte]; omega)]

end Bits

namespace Word

variable {W : Width}

/-- The word is what a write of `count` bits expects: `count` bits of it at most, zeros after. -/
def Fits (word : Word W) (count : Nat) : Prop := count ≤ W.bits ∧ word.keep count = word

instance (word : Word W) (count : Nat) : Decidable (word.Fits count) :=
  inferInstanceAs (Decidable (_ ∧ _))

theorem getMsbD_highMask (count i : Nat) :
    (highMask count : Word W).getMsbD i = decide (i < count ∧ i < W.bits) := by
  rw [highMask, BitVec.getMsbD_shiftLeft, BitVec.getMsbD_allOnes]
  congr 1
  exact propext (by omega)

theorem getMsbD_keep (word : Word W) (count i : Nat) :
    (word.keep count).getMsbD i = (decide (i < count) && word.getMsbD i) := by
  rw [keep, BitVec.getMsbD_and, getMsbD_highMask]
  by_cases hi : i < W.bits
  · simp [hi, Bool.and_comm]
  · simp [BitVec.getMsbD_of_ge word i (by omega)]

theorem Fits.getMsbD_eq_false {word : Word W} {count i : Nat} (h : word.Fits count)
    (hi : count ≤ i) : word.getMsbD i = false := by
  rw [← h.2, getMsbD_keep, decide_eq_false (by omega), Bool.false_and]

theorem fits_bits (word : Word W) : word.Fits W.bits := by
  refine ⟨Nat.le_refl _, BitVec.eq_of_getMsbD_eq fun i hi => ?_⟩
  rw [getMsbD_keep, decide_eq_true hi, Bool.true_and]

theorem fits_keep (word : Word W) {count : Nat} (h : count ≤ W.bits) :
    (word.keep count).Fits count := by
  refine ⟨h, BitVec.eq_of_getMsbD_eq fun i _ => ?_⟩
  rw [getMsbD_keep, getMsbD_keep, ← Bool.and_assoc, Bool.and_self]

theorem fits_zero {count : Nat} (h : count ≤ W.bits) : (0 : Word W).Fits count :=
  ⟨h, BitVec.zero_and⟩

theorem take_toBits (word : Word W) {count : Nat} (h : count ≤ W.bits) :
    word.toBits.take count = (List.range count).map word.getMsbD := by
  rw [toBits, ← List.map_take, List.take_range, Nat.min_eq_left h]

theorem take_toBits_self (word : Word W) : word.toBits.take W.bits = word.toBits :=
  List.take_of_length_le (Nat.le_of_eq word.length_toBits)

/-- Cutting a word off after its first bits does not change them. -/
theorem take_toBits_keep (word : Word W) {count : Nat} (h : count ≤ W.bits) :
    (word.keep count).toBits.take count = word.toBits.take count := by
  rw [take_toBits _ h, take_toBits _ h]
  refine List.map_congr_left fun i hi => ?_
  rw [getMsbD_keep, decide_eq_true (List.mem_range.1 hi), Bool.true_and]

theorem take_toBits_zero {count : Nat} (h : count ≤ W.bits) :
    (0 : Word W).toBits.take count = List.replicate count false := by
  rw [take_toBits _ h, List.eq_replicate_iff]
  exact ⟨by simp, fun b hb => by simp_all⟩

/-! ## Bytes of a word -/

private theorem range_mul_eq_flatMap (m n : Nat) :
    List.range (m * n) = (List.range m).flatMap fun i => (List.range n).map (i * n + ·) := by
  induction m with
  | zero => simp
  | succ m ih => rw [Nat.succ_mul, List.range_add, ih, List.range_succ, List.flatMap_append]; simp

private theorem testBit_shiftRight_toUInt8 (value shift : Nat) {i : Nat} (hi : i < 8) :
    (UInt8.ofNat (value >>> shift)).toNat.testBit (7 - i) = value.testBit (shift + (7 - i)) := by
  rw [UInt8.toNat_ofNat', Nat.testBit_mod_two_pow, Nat.testBit_shiftRight,
    decide_eq_true (by omega), Bool.true_and]

theorem ofBytes_toBytes (word : Word W) : Bits.ofBytes word.toBytes = word.toBits := by
  have hW := W.bits_eq
  have hr : List.range W.bits =
      (List.range W.bytes).flatMap fun i => (List.range 8).map (i * 8 + ·) := by
    rw [hW, Nat.mul_comm, range_mul_eq_flatMap]
  rw [toBits, hr, List.map_flatMap, Bits.ofBytes, toBytes, List.flatMap_map]
  refine List.flatMap_congr fun i hi => ?_
  rw [Bits.ofByte, List.map_map]
  refine List.map_congr_left fun j hj => ?_
  have hi := List.mem_range.1 hi
  have hj := List.mem_range.1 hj
  have hp : i * 8 + j < W.bits ∧
      8 * (W.bytes - 1 - i) + (7 - j) = W.bits - 1 - (i * 8 + j) := by omega
  rw [testBit_shiftRight_toUInt8 _ _ hj, hp.2, Function.comp_apply, BitVec.getMsbD,
    decide_eq_true hp.1, Bool.true_and, BitVec.getLsbD]

end Word

namespace Words

variable {W : Width}

/-- The bit at an index of a sequence of words; zero past the end. -/
def bit (words : List (Word W)) (i : Nat) : Bool :=
  (words[i / W.bits]?.getD 0).getMsbD (i % W.bits)

theorem bit_cons_of_lt (word : Word W) (words : List (Word W)) {i : Nat} (h : i < W.bits) :
    bit (word :: words) i = word.getMsbD i := by
  simp [bit, Nat.div_eq_of_lt h, Nat.mod_eq_of_lt h]

theorem bit_cons_add (word : Word W) (words : List (Word W)) (i : Nat) :
    bit (word :: words) (W.bits + i) = bit words i := by
  rw [bit, Nat.add_div_left i W.bits_pos, Nat.add_mod_left, List.getElem?_cons_succ, bit]

theorem toBits_eq_map (words : List (Word W)) :
    toBits words = (List.range (words.length * W.bits)).map (bit words) := by
  induction words with
  | nil => simp
  | cons word words ih =>
    rw [toBits_cons, List.length_cons, Nat.succ_mul, Nat.add_comm, List.range_add,
      List.map_append, List.map_map, ih, Word.toBits]
    congr 1
    · exact List.map_congr_left fun i hi =>
        (bit_cons_of_lt word words (List.mem_range.1 hi)).symm
    · exact List.map_congr_left fun i _ => (bit_cons_add word words i).symm

theorem take_toBits (words : List (Word W)) {count : Nat} (h : Hold words count) :
    (toBits words).take count = (List.range count).map (bit words) := by
  rw [toBits_eq_map, ← List.map_take, List.take_range, Nat.min_eq_left h]

theorem take_toBits_cons (word : Word W) (words : List (Word W)) {count : Nat}
    (h : W.bits ≤ count) :
    (toBits (word :: words)).take count =
      word.toBits ++ (toBits words).take (count - W.bits) := by
  rw [toBits_cons, List.take_append, Word.length_toBits,
    List.take_of_length_le (by rw [Word.length_toBits]; exact h)]

theorem take_toBits_cons_of_le (word : Word W) (words : List (Word W)) {count : Nat}
    (h : count ≤ W.bits) : (toBits (word :: words)).take count = word.toBits.take count := by
  rw [toBits_cons, List.take_append_of_le_length (by rwa [Word.length_toBits])]

theorem toBits_take (words : List (Word W)) (n : Nat) :
    toBits (words.take n) = (toBits words).take (n * W.bits) := by
  induction words generalizing n with
  | nil => simp
  | cons word words ih =>
    cases n with
    | zero => simp
    | succ n =>
      rw [List.take_succ_cons, toBits_cons, ih,
        take_toBits_cons _ _ (by rw [Nat.succ_mul]; omega), Nat.succ_mul, Nat.add_sub_cancel]

theorem toBits_drop (words : List (Word W)) (n : Nat) :
    toBits (words.drop n) = (toBits words).drop (n * W.bits) := by
  induction words generalizing n with
  | nil => simp
  | cons word words ih =>
    cases n with
    | zero => simp
    | succ n =>
      rw [List.drop_succ_cons, ih, toBits_cons, Nat.succ_mul, Nat.add_comm,
        ← List.drop_drop, List.drop_left' word.length_toBits]

theorem Hold.tail {word : Word W} {words : List (Word W)} {count : Nat}
    (h : Hold (word :: words) count) : Hold words (count - W.bits) := by
  rw [Hold, List.length_cons, Nat.succ_mul] at h
  rw [Hold]
  omega

theorem Hold.mono {words : List (Word W)} {count count' : Nat} (h : Hold words count)
    (hle : count' ≤ count) : Hold words count' := Nat.le_trans hle h

/-- Words that hold `n` whole words hold more bits exactly when the words after them do. -/
theorem hold_add_iff {words : List (Word W)} {count n : Nat} (h : Hold words (n * W.bits)) :
    Hold words (n * W.bits + count) ↔ Hold (words.drop n) count := by
  rw [Hold] at h
  rw [Hold, Hold, List.length_drop, Nat.sub_mul]
  omega

theorem toBytes_ne_nil {words : List (Word W)} (h : words ≠ []) : toBytes words ≠ [] := by
  rw [← List.length_pos_iff, length_toBytes]
  exact Nat.mul_pos (List.length_pos_iff.2 h) W.bytes_pos

/-- Words and their big-endian bytes spell the same bits. -/
theorem ofBytes_toBytes (words : List (Word W)) :
    Bits.ofBytes (toBytes words) = toBits words := by
  induction words with
  | nil => rfl
  | cons word words ih =>
    rw [toBytes, List.flatMap_cons, Bits.ofBytes_append, word.ofBytes_toBytes, ← toBytes, ih,
      toBits_cons]

end Words
end BitTransducer
