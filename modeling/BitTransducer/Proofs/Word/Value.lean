import Mathlib.Tactic.Ring
import BitTransducer.Proofs.Word.Spelling

/-! # The numbers that bit strings spell

A bit string of a given length and the number it spells determine each other, and the numbers of
bytes and words are those that their bits spell. A part of a bit string is found in its number by a
shift and a remainder (`Bits.value_append_append`), which is how numbers are read from bytes.

Main statements: `Bits.value_inj`, `Bits.ofBytes_inj`, `Word.toBits_leftAlign_value` (aligning a
number to the left moves its bits to the top of a word). -/

namespace BitTransducer

/-- Blocks of one length can be told from their concatenation. -/
private theorem flatMap_inj {α β : Type} {f : α → List β} {n : Nat} (hn : ∀ x, (f x).length = n)
    (hf : ∀ {x y}, f x = f y → x = y) {a b : List α} (hl : a.length = b.length)
    (h : a.flatMap f = b.flatMap f) : a = b := by
  induction a generalizing b with
  | nil => exact (List.eq_nil_of_length_eq_zero hl.symm).symm
  | cons x a ih =>
    cases b with
    | nil => cases hl
    | cons y b =>
      rw [List.flatMap_cons, List.flatMap_cons] at h
      obtain ⟨hx, ha⟩ := List.append_inj h ((hn x).trans (hn y).symm)
      rw [hf hx, ih (Nat.succ.inj hl) ha]

namespace Bits

@[simp] theorem value_nil : value [] = 0 := rfl

private theorem foldl_value (bits : List Bool) (n : Nat) :
    bits.foldl (fun n b => 2 * n + b.toNat) n = n * 2 ^ bits.length + value bits := by
  induction bits generalizing n with
  | nil => simp
  | cons b bits ih =>
    have hv : value (b :: bits) = b.toNat * 2 ^ bits.length + value bits := by
      rw [value, List.foldl_cons, ih, Nat.mul_zero, Nat.zero_add]
    rw [List.foldl_cons, ih, hv, List.length_cons, Nat.pow_succ]
    ring

theorem value_append (a b : List Bool) : value (a ++ b) = value a * 2 ^ b.length + value b := by
  rw [value, List.foldl_append, ← value, foldl_value]

theorem value_cons (b : Bool) (bits : List Bool) :
    value (b :: bits) = b.toNat * 2 ^ bits.length + value bits := by
  have h := value_append [b] bits
  simpa [value] using h

theorem value_lt (bits : List Bool) : value bits < 2 ^ bits.length := by
  induction bits with
  | nil => simp
  | cons b bits ih =>
    have hb : b.toNat * 2 ^ bits.length ≤ 1 * 2 ^ bits.length :=
      Nat.mul_le_mul_right _ (Bool.toNat_le b)
    rw [value_cons, List.length_cons, Nat.pow_succ]
    omega

@[simp] theorem value_replicate_false (n : Nat) : value (List.replicate n false) = 0 := by
  induction n with
  | zero => rfl
  | succ n ih => simp [List.replicate_succ, value_cons, ih]

/-- The number of a middle part is found by shifting out what follows it and cutting off what comes
before. -/
theorem value_append_append (a b c : List Bool) :
    value (a ++ b ++ c) >>> c.length % 2 ^ b.length = value b := by
  rw [value_append (a ++ b), value_append a, Nat.shiftRight_eq_div_pow,
    Nat.mul_comm _ (2 ^ c.length), Nat.mul_add_div (Nat.two_pow_pos _),
    Nat.div_eq_of_lt (value_lt c), Nat.add_zero, Nat.mul_comm (value a), Nat.mul_add_mod,
    Nat.mod_eq_of_lt (value_lt b)]

theorem value_inj {a b : List Bool} (hl : a.length = b.length) (hv : value a = value b) :
    a = b := by
  induction a generalizing b with
  | nil => exact (List.eq_nil_of_length_eq_zero hl.symm).symm
  | cons x a ih =>
    cases b with
    | nil => cases hl
    | cons y b =>
      replace hl : a.length = b.length := Nat.succ.inj hl
      have ha := value_lt a
      have hb := value_lt b
      rw [value_cons, value_cons, hl] at hv
      rw [hl] at ha
      -- the first bit decides on which side of the power of two the number lies
      cases x <;> cases y <;> simp only [Bool.toNat_true, Bool.toNat_false] at hv
      · rw [ih hl (by omega)]
      · omega
      · omega
      · rw [ih hl (by omega)]

/-- The bits of a number from place `n` down spell its remainder. -/
theorem value_map_testBit (x n : Nat) :
    value ((List.range n).map fun i => x.testBit (n - 1 - i)) = x % 2 ^ n := by
  induction n with
  | zero => simp [Nat.mod_one]
  | succ n ih =>
    have hshift : (fun i => x.testBit (n + 1 - 1 - i)) ∘ Nat.succ =
        fun i => x.testBit (n - 1 - i) := by
      funext i
      rw [Function.comp_apply]
      congr 1
      omega
    rw [List.range_succ_eq_map, List.map_cons, List.map_map, hshift, value_cons, ih,
      List.length_map, List.length_range, Nat.mod_pow_succ, Nat.sub_zero, Nat.add_sub_cancel,
      Nat.toNat_testBit]
    ring

theorem value_ofByte (byte : UInt8) : value (ofByte byte) = byte.toNat := by
  rw [ofByte, value_map_testBit byte.toNat 8]
  exact Nat.mod_eq_of_lt byte.toNat_lt

theorem ofByte_inj {a b : UInt8} (h : ofByte a = ofByte b) : a = b := by
  rw [← UInt8.toNat_inj, ← value_ofByte, h, value_ofByte]

theorem ofBytes_inj {a b : List UInt8} (h : ofBytes a = ofBytes b) : a = b := by
  have hl := congrArg List.length h
  rw [length_ofBytes, length_ofBytes] at hl
  exact flatMap_inj length_ofByte ofByte_inj (Nat.eq_of_mul_eq_mul_left (by decide) hl) h

theorem ofBytes_drop (bytes : List UInt8) (n : Nat) :
    ofBytes (bytes.drop n) = (ofBytes bytes).drop (8 * n) := by
  induction bytes generalizing n with
  | nil => simp
  | cons byte bytes ih =>
    cases n with
    | zero => simp
    | succ n =>
      rw [List.drop_succ_cons, ih, ofBytes_cons, Nat.mul_succ, Nat.add_comm, ← List.drop_drop,
        List.drop_left' (length_ofByte byte)]

theorem ofBytes_replicate_zero (n : Nat) :
    ofBytes (List.replicate n 0) = List.replicate (8 * n) false := by
  induction n with
  | zero => rfl
  | succ n ih =>
    rw [List.replicate_succ, ofBytes_cons, ih, Nat.mul_succ, Nat.add_comm (8 * n),
      List.replicate_add]
    rfl

/-- Bytes that spell a byte string and zero bits up to a whole word are that byte string and fewer
zero bytes than a word has. -/
theorem eq_append_of_padTo {W : Width} {received bytes : List UInt8}
    (h : ofBytes received = padTo W.bits (ofBytes bytes)) :
    ∃ n < W.bytes, W.bytes ∣ bytes.length + n ∧ received = bytes ++ List.replicate n 0 := by
  have hlength := congrArg List.length h
  rw [length_ofBytes, length_padTo _ _ W.bits_pos, length_ofBytes] at hlength
  have hle := le_ceilDiv_mul (8 * bytes.length) W.bits_pos
  have hlt := ceilDiv_mul_lt (8 * bytes.length) W.bits_pos
  rw [← hlength] at hle hlt
  rw [W.bits_eq] at hlt
  refine ⟨received.length - bytes.length, by omega, ?_, ofBytes_inj ?_⟩
  · rw [Nat.add_sub_cancel' (by omega)]
    refine ⟨ceilDiv (8 * bytes.length) W.bits, Nat.eq_of_mul_eq_mul_left (by decide : 0 < 8) ?_⟩
    rw [hlength, Nat.mul_comm _ W.bits, ← Nat.mul_assoc, ← W.bits_eq]
  · rw [h, padTo, length_ofBytes, ← hlength, ofBytes_append, ofBytes_replicate_zero, Nat.mul_sub]

end Bits

namespace Word

variable {W : Width}

theorem value_toBits (word : Word W) : Bits.value word.toBits = word.toNat := by
  have hbits : word.toBits =
      (List.range W.bits).map fun i => word.toNat.testBit (W.bits - 1 - i) := by
    refine List.map_congr_left fun i hi => ?_
    rw [BitVec.getMsbD, decide_eq_true (List.mem_range.1 hi), Bool.true_and, BitVec.getLsbD]
  rw [hbits, Bits.value_map_testBit, Nat.mod_eq_of_lt word.isLt]

theorem toBits_inj {a b : Word W} (h : a.toBits = b.toBits) : a = b := by
  rw [← BitVec.toNat_inj, ← value_toBits, h, value_toBits]

/-- The first bits of a word, right-justified, are what is left when the others are shifted out. -/
theorem value_take_toBits (word : Word W) {count : Nat} (h : count ≤ W.bits) :
    Bits.value (word.toBits.take count) = (word >>> (W.bits - count)).toNat := by
  have key := Bits.value_append_append [] (word.toBits.take count) (word.toBits.drop count)
  rw [List.nil_append, List.take_append_drop, value_toBits, List.length_drop, List.length_take,
    length_toBits, Nat.min_eq_left h] at key
  rw [← key, BitVec.toNat_ushiftRight, Nat.mod_eq_of_lt]
  rw [Nat.shiftRight_eq_div_pow, Nat.div_lt_iff_lt_mul (Nat.two_pow_pos _), ← Nat.pow_add,
    Nat.add_sub_cancel' h]
  exact word.isLt

theorem Fits.toBits_eq {word : Word W} {count : Nat} (h : word.Fits count) :
    word.toBits = word.toBits.take count ++ List.replicate (W.bits - count) false := by
  conv_lhs => rw [← List.take_append_drop count word.toBits]
  congr 1
  rw [List.eq_replicate_iff]
  refine ⟨by simp, fun bit hbit => ?_⟩
  obtain ⟨i, hi, rfl⟩ := List.getElem_of_mem hbit
  rw [List.getElem_drop]
  simp only [toBits, List.getElem_map, List.getElem_range]
  exact h.getMsbD_eq_false (Nat.le_add_right ..)

/-- Aligning a number to the left moves the bits that spell it to the top of a word. -/
theorem toBits_leftAlign_value (bits : List Bool) (h : bits.length ≤ W.bits) :
    (leftAlign (Bits.value bits) bits.length : Word W).toBits =
      bits ++ List.replicate (W.bits - bits.length) false := by
  have hlt := Bits.value_lt bits
  have hpow : 2 ^ bits.length * 2 ^ (W.bits - bits.length) = 2 ^ W.bits := by
    rw [← Nat.pow_add, Nat.add_sub_cancel' h]
  have hword : Bits.value bits * 2 ^ (W.bits - bits.length) < 2 ^ W.bits := by
    rw [← hpow]
    exact Nat.mul_lt_mul_of_pos_right hlt (Nat.two_pow_pos _)
  have hsmall : Bits.value bits < 2 ^ W.bits :=
    Nat.lt_of_lt_of_le hlt (Nat.pow_le_pow_right Nat.two_pos h)
  apply Bits.value_inj
  · rw [length_toBits, List.length_append, List.length_replicate, Nat.add_sub_cancel' h]
  · rw [value_toBits, leftAlign, ofValue, BitVec.toNat_shiftLeft, BitVec.toNat_ofNat,
      Nat.mod_eq_of_lt hsmall, Nat.shiftLeft_eq, Nat.mod_eq_of_lt hword, Bits.value_append,
      Bits.value_replicate_false, List.length_replicate, Nat.add_zero]

/-- A word that ends where its count says is its first bits, aligned to the left. -/
theorem Fits.leftAlign_value {word : Word W} {count : Nat} (h : word.Fits count) :
    leftAlign (Bits.value (word.toBits.take count)) count = word := by
  have hl : (word.toBits.take count).length = count := by
    rw [List.length_take, length_toBits, Nat.min_eq_left h.1]
  have hb := toBits_leftAlign_value (W := W) (word.toBits.take count) (hl.symm ▸ h.1)
  rw [hl, ← h.toBits_eq] at hb
  exact toBits_inj hb

theorem fits_leftAlign_value (bits : List Bool) (h : bits.length ≤ W.bits) :
    (leftAlign (Bits.value bits) bits.length : Word W).Fits bits.length := by
  refine ⟨h, toBits_inj ?_⟩
  rw [(fits_keep _ h).toBits_eq, take_toBits_keep _ h, toBits_leftAlign_value bits h,
    List.take_left]

end Word

theorem Words.toBits_inj {W : Width} {a b : List (Word W)} (hl : a.length = b.length)
    (h : toBits a = toBits b) : a = b :=
  flatMap_inj Word.length_toBits Word.toBits_inj hl h

end BitTransducer
