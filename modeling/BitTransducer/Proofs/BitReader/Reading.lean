import BitTransducer.BitReader
import BitTransducer.Proofs.Outcome
import BitTransducer.Proofs.Word.Value

/-! # What a reader reads

A reader that is `Within` its data reads its unread bits from the front: a read of `count` bits
returns the number that the first `count` unread bits spell and leaves the others. The loop over
bytes is opened once, in `gather?_eq`; all other reads are stated by `BitReader.unread`.

Main statements: `readBits_eq`, `readWord_eq` and `alignWord_eq`. -/

namespace BitTransducer
namespace BitReader

variable {W : Width} {r : BitReader} {count : Nat}

/-- The cursor is within the bits that the reader is limited to, and these within the data. -/
structure Within (r : BitReader) : Prop where
  position_le : r.position ≤ r.length
  length_le : r.length ≤ 8 * r.data.size

theorem within_ofBytes (data : Array UInt8) : (ofBytes data).Within :=
  ⟨Nat.zero_le _, Nat.le_refl _⟩

theorem unread_ofBytes (data : Array UInt8) : (ofBytes data).unread = Bits.ofBytes data.toList := by
  rw [unread, ofBytes, List.drop_zero, List.take_of_length_le]
  rw [Bits.length_ofBytes, Array.length_toList]

theorem Within.length_unread (h : r.Within) : r.unread.length = r.remaining := by
  have := h.length_le
  rw [unread, List.length_drop, List.length_take, Bits.length_ofBytes, Array.length_toList,
    Nat.min_eq_left this, remaining]

theorem Within.hasBits_iff (h : r.Within) : r.hasBits = true ↔ r.unread ≠ [] := by
  rw [← List.length_pos_iff, h.length_unread, remaining, Nat.sub_pos_iff_lt, hasBits,
    decide_eq_true_iff]

theorem Within.length_take_unread (h : r.Within) (hc : count ≤ r.remaining) :
    (r.unread.take count).length = count := by
  rw [List.length_take, h.length_unread, Nat.min_eq_left hc]

theorem Within.advance (h : r.Within) (hc : count ≤ r.remaining) :
    Within { r with position := r.position + count } := by
  have := h.position_le
  rw [remaining] at hc
  exact ⟨by dsimp only; omega, h.length_le⟩

theorem unread_advance (r : BitReader) (count : Nat) :
    unread { r with position := r.position + count } = r.unread.drop count := by
  rw [unread, unread, List.drop_drop]

/-- The first unread bits are bits of the data from the cursor on. -/
theorem take_unread (hc : count ≤ r.remaining) :
    r.unread.take count = ((Bits.ofBytes r.data.toList).drop r.position).take count := by
  rw [remaining] at hc
  rw [unread, List.drop_take, List.take_take, Nat.min_eq_left hc]

/-! ## The loop over bytes -/

/-- Up to the end of a byte, the bits from a position on are bits of that byte. -/
theorem take_drop_ofBytes {bytes : List UInt8} {position : Nat} {byte : UInt8}
    (hb : bytes[position / 8]? = some byte) (hc : count ≤ 8 - position % 8) :
    ((Bits.ofBytes bytes).drop position).take count =
      ((Bits.ofByte byte).drop (position % 8)).take count := by
  have hbytes : bytes.drop (position / 8) = byte :: bytes.drop (position / 8 + 1) := by
    obtain ⟨hlt, rfl⟩ := List.getElem?_eq_some_iff.1 hb
    exact List.drop_eq_getElem_cons hlt
  have hdrop : (Bits.ofBytes bytes).drop position =
      (Bits.ofByte byte).drop (position % 8) ++ Bits.ofBytes (bytes.drop (position / 8 + 1)) := by
    have hp := Nat.mod_lt position (by decide : 0 < 8)
    conv_lhs => rw [← Nat.div_add_mod position 8]
    rw [← List.drop_drop, ← Bits.ofBytes_drop, hbytes, Bits.ofBytes_cons,
      List.drop_append_of_le_length (by rw [Bits.length_ofByte]; omega)]
  rw [hdrop, List.take_append_of_le_length]
  rwa [List.length_drop, Bits.length_ofByte]

theorem value_take_drop_ofByte (byte : UInt8) {offset : Nat} (h : count ≤ 8 - offset) :
    byte.toNat >>> (8 - offset - count) % 1 <<< count =
      Bits.value (((Bits.ofByte byte).drop offset).take count) := by
  have key := Bits.value_append_append ((Bits.ofByte byte).take offset)
    (((Bits.ofByte byte).drop offset).take count) (((Bits.ofByte byte).drop offset).drop count)
  rw [List.append_assoc, List.take_append_drop, List.take_append_drop, Bits.value_ofByte,
    List.length_drop, List.length_take, List.length_drop, Bits.length_ofByte,
    Nat.min_eq_left h] at key
  rw [Nat.one_shiftLeft, key]

/-- The loop puts the bits from a position on behind a number. -/
theorem gather?_eq (data : Array UInt8) (position count value : Nat)
    (h : position + count ≤ 8 * data.size) :
    gather? data position count value =
      some (value * 2 ^ count +
        Bits.value (((Bits.ofBytes data.toList).drop position).take count)) := by
  fun_induction gather? data position count value with
  | case1 => simp
  | case2 position count value h0 hnone =>
    have := Array.getElem?_eq_none_iff.1 hnone
    omega
  | case3 position count value h0 room taken byte hbyte bits ih =>
    have htaken : taken ≤ count := Nat.min_le_left ..
    have hroom : taken ≤ 8 - position % 8 := Nat.min_le_right ..
    have hlen : (((Bits.ofBytes data.toList).drop (position + taken)).take
        (count - taken)).length = count - taken := by
      rw [List.length_take, List.length_drop, Bits.length_ofBytes, Array.length_toList]
      omega
    have hbits : bits = Bits.value (((Bits.ofBytes data.toList).drop position).take taken) := by
      rw [take_drop_ofBytes (by rwa [Array.getElem?_toList]) hroom]
      exact value_take_drop_ofByte byte hroom
    have hsplit : ((Bits.ofBytes data.toList).drop position).take count =
        ((Bits.ofBytes data.toList).drop position).take taken ++
          ((Bits.ofBytes data.toList).drop (position + taken)).take (count - taken) := by
      rw [← List.drop_drop, ← List.take_add, Nat.add_sub_cancel' htaken]
    have hpow : 2 ^ count = 2 ^ taken * 2 ^ (count - taken) := by
      rw [← Nat.pow_add, Nat.add_sub_cancel' htaken]
    rw [ih (by omega), hsplit, Bits.value_append, hlen, hpow, hbits, Nat.shiftLeft_eq]
    congr 1
    ring

/-! ## Reads -/

theorem demand_of_le (hc : count ≤ r.remaining) : demand count r = .ok () r := by
  show (if r.remaining < count then _ else _ : Action Unit) r = _
  rw [if_neg (Nat.not_lt.2 hc)]
  rfl

theorem demand_of_lt (hc : r.remaining < count) :
    demand count r = .error (.error .underflow) r := by
  show (if r.remaining < count then _ else _ : Action Unit) r = _
  rw [if_pos hc]
  rfl

private theorem take_eq (h : r.Within) (hc : count ≤ r.remaining) :
    take count r =
      .ok (Bits.value (r.unread.take count)) { r with position := r.position + count } := by
  have hlt : r.position + count ≤ 8 * r.data.size := by
    have := h.position_le
    have := h.length_le
    rw [remaining] at hc
    omega
  have hg := gather?_eq r.data r.position count 0 hlt
  rw [Nat.zero_mul, Nat.zero_add, ← take_unread hc] at hg
  have hget : (get : Action BitReader) r = .ok r r := rfl
  rw [take, bind_of_ok (demand_of_le hc), bind_of_ok hget, hg]
  rfl

theorem readBits_eq (h : r.Within) (h0 : count ≠ 0) (h64 : count ≤ 64) (hc : count ≤ r.remaining) :
    readBits count r =
      .ok (Bits.value (r.unread.take count)) { r with position := r.position + count } := by
  have hvalid : ¬ (count = 0 ∨ 64 < count) := by omega
  rw [readBits, if_neg hvalid]
  exact take_eq h hc

/-- A word that is read has the bits read at its top. -/
theorem readWord_eq (h : r.Within) (h0 : count ≠ 0) (hW : count ≤ W.bits)
    (hc : count ≤ r.remaining) :
    readWord W count r =
      .ok (Word.leftAlign (Bits.value (r.unread.take count)) count)
        { r with position := r.position + count } := by
  have h64 : count ≤ 64 := Nat.le_trans hW (by cases W <;> decide)
  rw [readWord, if_neg (Nat.not_lt.2 hW)]
  exact bind_of_ok (readBits_eq h h0 h64 hc)

/-- The word that is read is fit to be written. -/
theorem fits_readWord (h : r.Within) (hW : count ≤ W.bits) (hc : count ≤ r.remaining) :
    (Word.leftAlign (Bits.value (r.unread.take count)) count : Word W).Fits count := by
  have hlen := h.length_take_unread hc
  have hfits := Word.fits_leftAlign_value (W := W) (r.unread.take count) (by rwa [hlen])
  rwa [hlen] at hfits

theorem toBits_readWord (h : r.Within) (hW : count ≤ W.bits) (hc : count ≤ r.remaining) :
    (Word.leftAlign (Bits.value (r.unread.take count)) count : Word W).toBits =
      r.unread.take count ++ List.replicate (W.bits - count) false := by
  have hlen := h.length_take_unread hc
  have hbits := Word.toBits_leftAlign_value (W := W) (r.unread.take count) (by rwa [hlen])
  rwa [hlen] at hbits

theorem skip_eq (hc : count ≤ r.remaining) :
    skip count r = .ok () { r with position := r.position + count } :=
  bind_of_ok (demand_of_le hc)

/-- Aligning moves to the next word boundary, or to the end if that comes first. -/
theorem alignWord_eq (h : r.position ≤ r.length) :
    alignWord W r =
      .ok () { r with position := min (Bits.ceilDiv r.position W.bits * W.bits) r.length } := by
  have hp := Nat.div_add_mod r.position W.bits
  rw [Nat.mul_comm] at hp
  rw [Bits.ceilDiv_eq _ W.bits_pos, Nat.add_mul]
  show EStateM.Result.ok () (if r.position % W.bits = 0 then r else _) = _
  by_cases h0 : r.position % W.bits = 0
  · rw [if_pos h0, if_pos h0, Nat.zero_mul, Nat.add_zero]
    rw [h0, Nat.add_zero] at hp
    rw [hp, Nat.min_eq_left h]
  · rw [if_neg h0, if_neg h0, Nat.one_mul]
    congr 3
    omega

end BitReader
end BitTransducer
