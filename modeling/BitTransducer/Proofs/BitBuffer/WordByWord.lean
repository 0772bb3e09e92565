import BitTransducer.Proofs.BitBuffer.Calls
import BitTransducer.Proofs.BitBuffer.Checked

/-! # Words in a block or one at a time

A sequence of words is written as a block at a word boundary. The same bits can be written by one
single write for each word, the last one cut off after its first bits, and it makes no difference:
both ways find room in the same cases, and leave the same buffer and the same signal. That rests on
the zero tail, since a block overwrites the cells that single writes or their words into.

Main statements: `ends_writeEachBy` (one word at a time), `writesWords_writeWordsChecked` (as a
block, cell by cell) and `writeWords_alike_writeEach`. -/

namespace BitTransducer

variable {W : Width} {ε : Type} {t : Tracked W}

namespace BitBuffer

theorem position_foldl_put_bits (full : List (Word W)) (b : BitBuffer W) :
    (full.foldl (fun b word => b.put word W.bits) b).position =
      b.position + full.length * W.bits := by
  induction full generalizing b with
  | nil => simp
  | cons word full ih =>
    rw [List.foldl_cons, ih, position_put, List.length_cons, Nat.succ_mul]
    omega

theorem size_storage_foldl_put_bits (full : List (Word W)) (b : BitBuffer W) :
    (full.foldl (fun b word => b.put word W.bits) b).storage.size = b.storage.size := by
  induction full generalizing b with
  | nil => rfl
  | cons word full ih => rw [List.foldl_cons, ih, size_storage_put]

/-- There is room for whole words and a part of one more if there is room for the whole words and
then for a single write. -/
theorem hasRoomFor_iff_of_mod_ne_zero {b : BitBuffer W} {count : Nat} (h0 : count % W.bits ≠ 0)
    {full : List (Word W)} (hlen : full.length = count / W.bits) :
    b.HasRoomFor count ↔ b.HasRoomFor (count / W.bits * W.bits) ∧
      (full.foldl (fun b word => b.put word W.bits) b).HasRoom := by
  have hcount : count ≠ 0 := by
    rintro rfl
    exact h0 (Nat.zero_mod _)
  rw [hasRoomFor_iff, hasRoomFor_iff, hasRoom_iff, position_foldl_put_bits,
    size_storage_foldl_put_bits, hlen, Bits.ceilDiv_mul_self _ W.bits_pos,
    Bits.ceilDiv_eq _ W.bits_pos, if_neg h0, Nat.succ_mul]
  omega

end BitBuffer

namespace Tracked

/-! ## Checked writes -/

/-- Changes the buffer by a step that breaks the contract where it has no result. -/
def updateBy (step : BitBuffer W → Option (BitBuffer W)) : Action ε W Unit := fun t =>
  match step t.buffer with
  | some buffer => .ok () { t with buffer }
  | none => .error (.violation .outOfBounds) t

def writeChecked (word : Word W) (count : Nat) : Action ε W Bool := do
  updateBy (·.writeChecked? word count)
  nearEnd

/-- Writes the first `count` bits of `words` one word at a time: the whole words, and then the first
bits of the next one if any are left. -/
def writeEachBy (write : Word W → Nat → Action ε W Bool) (words : List (Word W)) (count : Nat) :
    Action ε W Unit := do
  let full ← orBreak (Cells.slice? words (count / W.bits))
  full.forM fun word => discard (write word W.bits)
  if count % W.bits ≠ 0 then
    let word ← orBreak words[count / W.bits]?
    let mask ← orBreak (Word.highMask? (count % W.bits))
    discard (write (word &&& mask) (count % W.bits))

/-- Writes words one at a time; whether the cursor is near the end then. -/
def writeEach (words : List (Word W)) (count : Nat) : Action ε W Bool := do
  writeEachBy write words count
  nearEnd

/-- Writes words as a block at a word boundary, and one at a time elsewhere. -/
def writeWordsChecked (words : List (Word W)) (count : Nat) : Action ε W Bool := do
  if (← get).buffer.isAligned then updateBy (·.writeBlockChecked? words count)
  else writeEachBy writeChecked words count
  nearEnd

theorem updateBy_of_some {step : BitBuffer W → Option (BitBuffer W)} {b : BitBuffer W}
    (h : step t.buffer = some b) :
    (updateBy step : Action ε W Unit) t = .ok () { t with buffer := b } := by
  rw [updateBy, h]

theorem updateBy_of_none {step : BitBuffer W → Option (BitBuffer W)}
    (h : step t.buffer = none) :
    (updateBy step : Action ε W Unit) t = .error (.violation .outOfBounds) t := by
  rw [updateBy, h]

theorem writeChecked_eq (word : Word W) (count : Nat) :
    (writeChecked word count : Action ε W Bool) = write word count := by
  funext t
  have hstep := t.buffer.writeChecked?_eq word count
  rw [BitBuffer.write?] at hstep
  by_cases h : t.buffer.HasRoom
  · rw [if_pos h] at hstep
    have hsize : 0 < (t.buffer.put word count).storage.size := by
      rw [BitBuffer.size_storage_put]
      exact h.size_pos
    rw [write_of_hasRoom h]
    exact (bind_of_ok (updateBy_of_some hstep)).trans (nearEnd_of_pos hsize)
  · rw [if_neg h] at hstep
    rw [write_of_not_hasRoom h]
    exact bind_of_error (updateBy_of_none hstep)

/-! ## One word at a time -/

theorem ends_discard_write (word : Word W) (count : Nat) (t : Tracked W) :
    Ends ((discard (write word count) : Action ε W Unit) t)
      (fun _ t' => t.buffer.HasRoom ∧ t' = { t with buffer := t.buffer.put word count })
      (fun _ _ => False) (¬ t.buffer.HasRoom) := by
  by_cases h : t.buffer.HasRoom
  · rw [discard_of_ok (write_of_hasRoom h word count)]
    exact ⟨h, rfl⟩
  · rw [discard_of_error (write_of_not_hasRoom h word count)]
    exact h

theorem ends_forM_write (full : List (Word W)) (t : Tracked W) :
    Ends ((full.forM fun word => discard (write word W.bits) : Action ε W Unit) t)
      (fun _ t' => t.buffer.HasRoomFor (full.length * W.bits) ∧
        t' = { t with buffer := full.foldl (fun b word => b.put word W.bits) t.buffer })
      (fun _ _ => False) (¬ t.buffer.HasRoomFor (full.length * W.bits)) := by
  induction full generalizing t with
  | nil => exact ⟨.inl (Nat.zero_mul _), rfl⟩
  | cons word full ih =>
    rw [List.length_cons, BitBuffer.hasRoomFor_mul_succ word, List.forM_eq_forM, List.forM_cons]
    refine .bind ((ends_discard_write word W.bits t).mono ?_ (fun _ _ => id) (mt And.left))
    rintro _ t' ⟨hroom, rfl⟩
    exact (ih _).mono (fun _ _ h => ⟨⟨hroom, h.1⟩, h.2⟩) (fun _ _ => id) (mt And.right)

/-- One word at a time, all bits are written if there are as many in the words and room for them,
and the contract is broken otherwise. -/
theorem ends_writeEachBy (words : List (Word W)) (count : Nat) (t : Tracked W) :
    Ends ((writeEachBy write words count : Action ε W Unit) t)
      (fun _ t' => (Words.Hold words count ∧ t.buffer.HasRoomFor count) ∧
        t' = { t with buffer :=
          (Words.pieces words count).foldl (fun b piece => b.put piece.1 piece.2) t.buffer })
      (fun _ _ => False) (¬ (Words.Hold words count ∧ t.buffer.HasRoomFor count)) := by
  have hceil := Bits.ceilDiv_eq count W.bits_pos
  rw [Words.hold_iff, Words.pieces_eq, List.foldl_append, List.foldl_map]
  by_cases hw : count / W.bits ≤ words.length
  swap
  · have hslice : Cells.slice? words (count / W.bits) = none := if_neg hw
    rw [writeEachBy, hslice]
    exact fun h => hw (by omega)
  have hlen : (words.take (count / W.bits)).length = count / W.bits := List.length_take_of_le hw
  have hslice : Cells.slice? words (count / W.bits) = some (words.take (count / W.bits)) :=
    if_pos hw
  have hfull := ends_forM_write (ε := ε) (words.take (count / W.bits)) t
  rw [hlen] at hfull
  rw [writeEachBy, hslice, hceil]
  by_cases h0 : count % W.bits = 0
  · rw [Nat.div_mul_cancel (Nat.dvd_of_mod_eq_zero h0)] at hfull
    rw [if_pos h0, if_pos h0, if_neg (not_not_intro h0)]
    refine .bind (.bind (hfull.mono ?_ (fun _ _ => False.elim) (mt And.right)))
    rintro _ t' ⟨hroom, rfl⟩
    exact ⟨⟨hw, hroom⟩, rfl⟩
  · have hroomFor := BitBuffer.hasRoomFor_iff_of_mod_ne_zero (b := t.buffer) h0 hlen
    rw [if_neg h0, if_neg h0, if_pos h0]
    refine .bind (.bind (hfull.mono ?_ (fun _ _ => False.elim) fun h h' => h (hroomFor.1 h'.2).1))
    rintro _ t' ⟨hroom, rfl⟩
    cases hword : words[count / W.bits]? with
    | none => exact fun h => absurd (List.getElem?_eq_none_iff.1 hword) (Nat.not_le.2 h.1)
    | some word =>
      obtain ⟨hlt, -⟩ := List.getElem?_eq_some_iff.1 hword
      rw [Word.highMask?_eq]
      refine .bind (.bind ((ends_discard_write (word.keep (count % W.bits)) _ _).mono ?_
        (fun _ _ => id) fun h h' => h (hroomFor.1 h'.2).2))
      rintro _ t' ⟨hlast, rfl⟩
      exact ⟨⟨hlt, hroomFor.2 ⟨hroom, hlast⟩⟩, rfl⟩

/-! ## Three ways to write words -/

/-- The step writes the first `count` bits of `words` if they hold as many and there is room for
them, and says whether the cursor is near the end then; otherwise it breaks the contract. -/
def WritesWords (t : Tracked W) (words : List (Word W)) (count : Nat)
    (ending : EStateM.Result (Failure ε) (Tracked W) Bool) : Prop :=
  Ends ending
    (fun signal t' => (Words.Hold words count ∧ t.buffer.HasRoomFor count) ∧
      signal = t'.buffer.nearEnd ∧ t' = { t with buffer := t.buffer.putWords words count })
    (fun _ _ => False) (¬ (Words.Hold words count ∧ t.buffer.HasRoomFor count))

namespace WritesWords

variable {words : List (Word W)} {count : Nat}
  {ending : EStateM.Result (Failure ε) (Tracked W) Bool}

theorem eq_ok (h : WritesWords t words count ending)
    (hw : Words.Hold words count ∧ t.buffer.HasRoomFor count) :
    ending = .ok (t.buffer.putWords words count).nearEnd
      { t with buffer := t.buffer.putWords words count } := by
  obtain ⟨_, _, hend, -, rfl, rfl⟩ := h.exists_ok_of_not (fun _ _ => id) (not_not_intro hw)
  exact hend

theorem exists_violation (h : WritesWords t words count ending)
    (hw : ¬ (Words.Hold words count ∧ t.buffer.HasRoomFor count)) :
    ∃ cause t', ending = .error (.violation cause) t' :=
  Ends.exists_violation h (fun _ _ h => hw h.1) (fun _ _ => id)

/-- A step that changes the buffer so, and then looks whether it is near the end. -/
theorem bind_nearEnd (hsize : 0 < t.buffer.storage.size) {step : Action ε W Unit}
    (h : Ends (step t)
      (fun _ t' => (Words.Hold words count ∧ t.buffer.HasRoomFor count) ∧
        t' = { t with buffer := t.buffer.putWords words count })
      (fun _ _ => False) (¬ (Words.Hold words count ∧ t.buffer.HasRoomFor count))) :
    WritesWords t words count
      ((do step; nearEnd : Action ε W Bool) t) := by
  refine .bind (h.mono ?_ (fun _ _ => id) id)
  rintro _ t' ⟨hw, rfl⟩
  rw [nearEnd_of_pos (by rwa [BitBuffer.size_storage_putWords])]
  exact ⟨hw, rfl, rfl⟩

end WritesWords

theorem writesWords_writeWords (hsize : 0 < t.buffer.storage.size) (words : List (Word W))
    (count : Nat) :
    WritesWords t words count ((writeWords words count : Action ε W Bool) t) := by
  by_cases h : Words.Hold words count ∧ t.buffer.HasRoomFor count
  · rw [writeWords_of_hasRoomFor hsize h]
    exact ⟨h, rfl, rfl⟩
  · rw [writeWords_of_not_hasRoomFor h]
    exact h

theorem writesWords_writeEach (hsize : 0 < t.buffer.storage.size) (hz : t.buffer.ZeroTail)
    (words : List (Word W)) (count : Nat) :
    WritesWords t words count ((writeEach words count : Action ε W Bool) t) := by
  have heach := ends_writeEachBy (ε := ε) words count t
  refine WritesWords.bind_nearEnd hsize (heach.mono ?_ (fun _ _ => id) id)
  rintro _ t' ⟨⟨hw, hroom⟩, rfl⟩
  rw [hz.putWords_eq_foldl hw hroom]
  exact ⟨⟨hw, hroom⟩, rfl⟩

theorem writesWords_writeWordsChecked (hsize : 0 < t.buffer.storage.size)
    (hp : t.buffer.position ≤ t.buffer.storage.size * W.bits) (words : List (Word W))
    (count : Nat) :
    WritesWords t words count ((writeWordsChecked words count : Action ε W Bool) t) := by
  have heach : (writeEachBy writeChecked words count : Action ε W Unit) =
      writeEachBy write words count := by
    congr 1
    funext word count
    exact writeChecked_eq word count
  rw [writeWordsChecked, heach]
  refine .get_bind ?_
  by_cases ha : t.buffer.isAligned = true
  · rw [if_pos ha]
    refine WritesWords.bind_nearEnd hsize ?_
    have hstep := BitBuffer.writeBlockChecked?_eq ha hp words count
    rw [BitBuffer.writeWords?] at hstep
    by_cases h : Words.Hold words count ∧ t.buffer.HasRoomFor count
    · rw [updateBy_of_some (hstep.trans (if_pos h))]
      exact ⟨h, rfl⟩
    · rw [updateBy_of_none (hstep.trans (if_neg h))]
      exact h
  · rw [if_neg ha]
    have hends := ends_writeEachBy (ε := ε) words count t
    refine WritesWords.bind_nearEnd hsize (hends.mono ?_ (fun _ _ => id) id)
    rintro _ t' ⟨h, rfl⟩
    rw [BitBuffer.putWords, if_neg ha]
    exact ⟨h, rfl⟩

theorem holds_and_hasRoomFor_iff {words : List (Word W)} {count : Nat} :
    (Words.Hold words count ∧ t.buffer.HasRoomFor count) ↔
      Bits.ceilDiv count W.bits ≤ words.length ∧
        (Bits.ceilDiv count W.bits = 0 ∨
          t.buffer.isAligned = true ∧
            t.buffer.completeCount + Bits.ceilDiv count W.bits ≤ t.buffer.storage.size ∨
          t.buffer.isAligned = false ∧
            t.buffer.completeCount + Bits.ceilDiv count W.bits + 1 ≤ t.buffer.storage.size) := by
  have hzero : Bits.ceilDiv count W.bits = 0 ↔ count = 0 := by
    rw [← Nat.le_zero, Bits.ceilDiv_le_iff W.bits_pos, Nat.zero_mul, Nat.le_zero]
  rw [Words.hold_iff, BitBuffer.HasRoomFor, hzero]
  cases t.buffer.isAligned <;> simp

/-- As long as every stored bit from the cursor on is zero, a block and single writes of the same
bits both succeed or both break the contract, and if they succeed they leave the same storage, the
same cursor and the same signal. They succeed if the words hold the bits and there are as many words
from the cursor on as the bits take, and one more unless the cursor is between two words. -/
theorem writeWords_alike_writeEach (hsize : 0 < t.buffer.storage.size) (hz : t.buffer.ZeroTail)
    (hp : t.buffer.position ≤ t.buffer.storage.size * W.bits) (words : List (Word W))
    (count : Nat) :
    if Bits.ceilDiv count W.bits ≤ words.length ∧
        (Bits.ceilDiv count W.bits = 0 ∨
          t.buffer.isAligned = true ∧
            t.buffer.completeCount + Bits.ceilDiv count W.bits ≤ t.buffer.storage.size ∨
          t.buffer.isAligned = false ∧
            t.buffer.completeCount + Bits.ceilDiv count W.bits + 1 ≤ t.buffer.storage.size) then
      ∃ signal t', (writeWords words count : Action ε W Bool) t = .ok signal t' ∧
        (writeEach words count : Action ε W Bool) t = .ok signal t' ∧
        (writeWordsChecked words count : Action ε W Bool) t = .ok signal t' ∧
        signal = t'.buffer.nearEnd ∧ t'.buffer.position = t.buffer.position + count
    else
      (∃ cause t', (writeWords words count : Action ε W Bool) t = .error (.violation cause) t') ∧
        (∃ cause t', (writeEach words count : Action ε W Bool) t = .error (.violation cause) t') ∧
        (∃ cause t',
          (writeWordsChecked words count : Action ε W Bool) t = .error (.violation cause) t') := by
  have hblock := writesWords_writeWords (ε := ε) hsize words count
  have heach := writesWords_writeEach (ε := ε) hsize hz words count
  have hchecked := writesWords_writeWordsChecked (ε := ε) hsize hp words count
  split
  · rename_i h
    have hw := holds_and_hasRoomFor_iff.2 h
    exact ⟨_, _, hblock.eq_ok hw, heach.eq_ok hw, hchecked.eq_ok hw, rfl,
      BitBuffer.position_putWords _ _ _ hw.1⟩
  · rename_i h
    have hw := mt holds_and_hasRoomFor_iff.1 h
    exact ⟨hblock.exists_violation hw, heach.exists_violation hw, hchecked.exists_violation hw⟩

/-- After three bits of two words there is room for another word, but not for a bit more, though
that would still fit in the storage. -/
theorem writeWords_after_three_bits :
    ∃ t : Tracked .w32, t.buffer.content = [true, false, true] ∧ t.buffer.storage.size = 2 ∧
      (∃ signal t', (writeWords [0xdeadbeef, 0xffffffff] 32 : Action String .w32 Bool) t =
          .ok signal t' ∧
        (writeEach [0xdeadbeef, 0xffffffff] 32 : Action String .w32 Bool) t = .ok signal t' ∧
        (writeWordsChecked [0xdeadbeef, 0xffffffff] 32 : Action String .w32 Bool) t =
          .ok signal t' ∧
        signal = t'.buffer.nearEnd ∧ t'.buffer.position = t.buffer.position + 32) ∧
      ∃ cause t', (writeEach [0xdeadbeef, 0xffffffff] 33 : Action String .w32 Bool) t =
        .error (.violation cause) t' := by
  have hs : (BitBuffer.withCapacity 0 : BitBuffer .w32).Sound := BitBuffer.sound_withCapacity 0
  have hput := hs.put (by decide) (show (0xa0000000 : Word .w32).Fits 3 by decide)
  let t : Tracked .w32 := { buffer := (BitBuffer.withCapacity 0).put 0xa0000000 3, events := #[] }
  have hword := writeWords_alike_writeEach (ε := String) (t := t) hput.size_pos hput.zeroTail
    hput.position_le [0xdeadbeef, 0xffffffff] 32
  have hmore := writeWords_alike_writeEach (ε := String) (t := t) hput.size_pos hput.zeroTail
    hput.position_le [0xdeadbeef, 0xffffffff] 33
  rw [if_pos (by decide)] at hword
  rw [if_neg (by decide)] at hmore
  exact ⟨t, by decide, by decide, hword, hmore.2.1⟩

end Tracked
end BitTransducer
