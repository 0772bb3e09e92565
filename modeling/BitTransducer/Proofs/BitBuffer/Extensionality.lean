import BitTransducer.Proofs.BitBuffer.Content
import BitTransducer.Proofs.Word.Value

/-! # What can be seen of a bit buffer

All that can be read off a sound buffer is determined by its content: the cursor, the complete
words, the partial word and the bytes. The cursor and the bytes do not depend on the word width
either, and the buffer itself depends on its content and its size only.

Main statements: `Sound.eq_of_content_eq`, `Sound.toBytes_eq_of_content_eq`. -/

namespace BitTransducer
namespace BitBuffer

variable {W W' : Width} {b b₁ b₂ : BitBuffer W}

/-- A buffer of a given size is determined by its content. -/
theorem Sound.eq_of_content_eq {b b' : BitBuffer W} (hs : b.Sound) (hs' : b'.Sound)
    (hsize : b.storage.size = b'.storage.size) (hc : b.content = b'.content) : b = b' := by
  have hp : b.position = b'.position := by rw [← hs.length_content, hc, hs'.length_content]
  have htoBits := hs.take_toBits_storage hs.position_le (Nat.le_refl _)
  rw [hc, hp, hsize, ← hs'.take_toBits_storage hs'.position_le (Nat.le_refl _),
    List.take_of_length_le, List.take_of_length_le] at htoBits
  · have hstorage := Words.toBits_inj (by simpa using hsize) htoBits
    cases b
    cases b'
    cases hp
    cases Array.toList_inj.1 hstorage
    rfl
  · exact Nat.le_of_eq (Words.length_toBits _)
  · rw [Words.length_toBits, Array.length_toList, hsize]

theorem Sound.position_eq_of_content_eq {b' : BitBuffer W'} (hs : b.Sound) (hs' : b'.Sound)
    (hc : b.content = b'.content) : b.position = b'.position := by
  rw [← hs.length_content, hc, hs'.length_content]

theorem Sound.isEmpty_iff (hs : b.Sound) : b.isEmpty = true ↔ b.content = [] := by
  rw [← List.length_eq_zero_iff, hs.length_content, isEmpty, decide_eq_true_iff]

theorem isEmpty_empty : (empty : BitBuffer W).isEmpty = true :=
  (sound_withCapacity _).isEmpty_iff.2 (content_withCapacity _)

/-- The default capacity is a whole number of words, so that no byte is added to it. -/
theorem size_empty : (empty : BitBuffer W).size = defaultCapacity := by
  rw [size, empty, withCapacity, Array.size_replicate]
  cases W with
  | w32 | w64 => rfl

/-- The bytes of a buffer are those of its content, whatever the words they were packed in. -/
theorem Sound.toBytes_eq_of_content_eq {b' : BitBuffer W'} (hs : b.Sound) (hs' : b'.Sound)
    (hc : b.content = b'.content) : b.toBytes = b'.toBytes := by
  apply Bits.ofBytes_inj
  rw [hs.ofBytes_toBytes, hs'.ofBytes_toBytes, hc]

theorem Sound.completeWords_eq_of_content_eq (hs₁ : b₁.Sound) (hs₂ : b₂.Sound)
    (hc : b₁.content = b₂.content) : b₁.completeWords = b₂.completeWords := by
  have hcount : b₁.completeCount = b₂.completeCount := by
    rw [completeCount, completeCount, hs₁.position_eq_of_content_eq hs₂ hc]
  apply Words.toBits_inj
  · rw [hs₁.length_completeWords, hs₂.length_completeWords, hcount]
  · rw [toBits_completeWords, toBits_completeWords, hc, hcount]

/-- The word that is written in part ends where the cursor is. -/
theorem Sound.fits_partialWord (hs : b.Sound) :
    (b.storage.getD b.completeCount 0).Fits b.offset := by
  have hp := b.completeCount_mul_add_offset
  refine ⟨Nat.le_of_lt b.offset_lt, BitVec.eq_of_getMsbD_eq fun i hi => ?_⟩
  rw [Word.getMsbD_keep]
  by_cases hlt : i < b.offset
  · rw [decide_eq_true hlt, Bool.true_and]
  · have hzero := hs.tail_zero (b.completeCount * W.bits + i) (by omega)
    rw [bit_eq, Nat.mul_comm, Nat.mul_add_div W.bits_pos, Nat.div_eq_of_lt hi, Nat.add_zero,
      Nat.mul_add_mod, Nat.mod_eq_of_lt hi] at hzero
    rw [Array.getD_eq_getD_getElem?, hzero, Bool.and_false]

theorem Sound.partialWord?_eq_of_content_eq (hs₁ : b₁.Sound) (hs₂ : b₂.Sound)
    (hc : b₁.content = b₂.content) : b₁.partialWord? = b₂.partialWord? := by
  have hp := hs₁.position_eq_of_content_eq hs₂ hc
  have hcount : b₁.completeCount = b₂.completeCount := by rw [completeCount, completeCount, hp]
  have hoffset : b₁.offset = b₂.offset := by rw [offset, offset, hp]
  have hspelled := hs₁.toBits_partialWord
  rw [hc, hcount, ← hs₂.toBits_partialWord] at hspelled
  rw [partialWord?, partialWord?, isAligned, isAligned, ← hoffset] at hspelled ⊢
  split
  · rfl
  · rename_i h
    have hfits₁ := hs₁.fits_partialWord
    have hfits₂ := hs₂.fits_partialWord
    rw [← hoffset] at hfits₂
    rw [if_neg h, if_neg h, Option.elim_some, Option.elim_some] at hspelled
    rw [← hfits₁.leftAlign_value, hspelled, hfits₂.leftAlign_value]

end BitBuffer
end BitTransducer
