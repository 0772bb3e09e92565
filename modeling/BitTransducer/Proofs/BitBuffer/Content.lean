import BitTransducer.BitBuffer.Growth
import BitTransducer.Proofs.Word.Spelling

/-! # What the operations on a bit buffer write

A buffer is `Sound` when its cursor is within the storage and every stored bit from the cursor on is
zero. Each operation is described by the bits it leaves in the storage (`bit_put`, `bit_drain`,
…), from which soundness and the content follow: or-ing a word into a zero tail writes it, and
draining shifts all bits to the front.

A block that is laid down at a word boundary leaves the same buffer as one write for each of its
words (`putWords_eq_foldl`), so that one induction over the words serves both ways of writing.

Main statements: `content_put`, `content_putWords`, `content_drain`, `reset_eq`. -/

namespace BitTransducer
namespace BitBuffer

variable {W : Width} {b : BitBuffer W}

/-- The stored bit at an index; zero past the end of the storage. -/
def bit (b : BitBuffer W) (i : Nat) : Bool := Words.bit b.storage.toList i

/-- The storage has the two words that a write may touch, the cursor does not lie beyond it, and
every stored bit from the cursor on is zero. -/
structure Sound (b : BitBuffer W) : Prop where
  two_le_size : 2 ≤ b.storage.size
  position_le : b.position ≤ b.storage.size * W.bits
  tail_zero : ∀ i, b.position ≤ i → b.bit i = false

/-- Every stored bit from the cursor on is zero, of a storage of any size. -/
def ZeroTail (b : BitBuffer W) : Prop := ∀ i, b.position ≤ i → b.bit i = false

theorem Sound.zeroTail (hs : b.Sound) : b.ZeroTail := hs.tail_zero

theorem bit_eq (b : BitBuffer W) (i : Nat) :
    b.bit i = (b.storage[i / W.bits]?.getD 0).getMsbD (i % W.bits) := by
  rw [bit, Words.bit, Array.getElem?_toList]

theorem content_eq_map (h : b.position ≤ b.storage.size * W.bits) :
    b.content = (List.range b.position).map b.bit :=
  Words.take_toBits b.storage.toList h

theorem Sound.content_eq_map (hs : b.Sound) : b.content = (List.range b.position).map b.bit :=
  BitBuffer.content_eq_map hs.position_le

theorem Sound.length_content (hs : b.Sound) : b.content.length = b.position := by
  rw [hs.content_eq_map, List.length_map, List.length_range]

theorem Sound.size_pos (hs : b.Sound) : 0 < b.storage.size :=
  Nat.lt_of_lt_of_le Nat.two_pos hs.two_le_size

theorem ZeroTail.getElem?_eq_zero (hz : b.ZeroTail) {j : Nat} (hj : b.position ≤ j * W.bits)
    (hlt : j < b.storage.size) : b.storage[j]? = some 0 := by
  rw [Array.getElem?_eq_getElem hlt, Option.some.injEq]
  refine BitVec.eq_of_getMsbD_eq fun r hr => ?_
  have ht := hz (j * W.bits + r) (by omega)
  rw [bit_eq, Nat.mul_comm, Nat.mul_add_div W.bits_pos, Nat.div_eq_of_lt hr, Nat.add_zero,
    Nat.mul_add_mod, Nat.mod_eq_of_lt hr, Array.getElem?_eq_getElem hlt, Option.getD_some] at ht
  rw [ht]
  exact BitVec.getMsbD_zero.symm

/-! ## Room -/

theorem isAligned_iff : b.isAligned = true ↔ b.position % W.bits = 0 := by
  rw [isAligned, offset, decide_eq_true_iff]

private theorem completeCount_add_ite (b : BitBuffer W) (n : Nat) :
    b.completeCount + n + (if b.isAligned then 0 else 1) =
      Bits.ceilDiv (b.position + n * W.bits) W.bits := by
  rw [Bits.ceilDiv_add_mul _ _ W.bits_pos, Bits.ceilDiv_eq _ W.bits_pos, completeCount]
  simp only [isAligned_iff]
  omega

theorem completeCount_le_size (hp : b.position ≤ b.storage.size * W.bits) :
    b.completeCount ≤ b.storage.size := by
  rw [completeCount, ← Nat.mul_div_cancel b.storage.size W.bits_pos]
  exact Nat.div_le_div_right hp

theorem writtenCount_le_size (hp : b.position ≤ b.storage.size * W.bits) :
    b.writtenCount ≤ b.storage.size := (Bits.ceilDiv_le_iff W.bits_pos).2 hp

theorem HasRoom.size_pos (h : b.HasRoom) : 0 < b.storage.size := by
  rw [HasRoom] at h
  split at h <;> omega

/-- There is room for a write exactly when a whole word fits after the cursor. -/
theorem hasRoom_iff : b.HasRoom ↔ b.position + W.bits ≤ b.storage.size * W.bits := by
  have h := completeCount_add_ite b 1
  rw [Nat.one_mul] at h
  rw [← Bits.ceilDiv_le_iff W.bits_pos, ← h, HasRoom]
  split <;> omega

/-- There is room for a write of many words exactly when all of them fit after the cursor. -/
theorem hasRoomFor_iff {count : Nat} : b.HasRoomFor count ↔
    count = 0 ∨ b.position + Bits.ceilDiv count W.bits * W.bits ≤ b.storage.size * W.bits := by
  rw [← Bits.ceilDiv_le_iff W.bits_pos, ← completeCount_add_ite, HasRoomFor]

theorem nearEnd_iff : b.nearEnd = true ↔ b.storage.size * W.bits ≤ b.position + W.bits := by
  rw [nearEnd, decide_eq_true_iff]
  omega

theorem nearEnd_eq_false_iff : b.nearEnd = false ↔ b.position < (b.storage.size - 1) * W.bits := by
  rw [nearEnd, decide_eq_false_iff_not, Nat.not_le, Nat.sub_mul, Nat.one_mul]

theorem hasRoom_of_nearEnd (h : b.nearEnd = false) : b.HasRoom := by
  have := mt nearEnd_iff.2 (Bool.eq_false_iff.1 h)
  exact hasRoom_iff.2 (by omega)

/-- There is no room once the cursor has passed the start of the last word. -/
theorem Sound.not_hasRoom_iff (hs : b.Sound) :
    ¬ b.HasRoom ↔ (b.storage.size - 1) * W.bits < b.position := by
  have hsize := Nat.mul_le_mul_right W.bits hs.two_le_size
  rw [hasRoom_iff, Nat.sub_mul, Nat.one_mul]
  omega

theorem Sound.nearEnd_eq_false (hs : b.Sound) (h : b.position < W.bits) : b.nearEnd = false := by
  rw [Bool.eq_false_iff, Ne, nearEnd_iff]
  have := Nat.mul_le_mul_right W.bits hs.two_le_size
  omega

/-! ## Single writes -/

/-- A bit that a write ors into a cell, from the cell's index relative to the cursor's. -/
private theorem getMsbD_sub_eq (word : Word W) {q o j r : Nat} (ho : o < W.bits)
    (hr : r < W.bits) :
    (decide (W.bits * q + o ≤ W.bits * j + r) &&
        word.getMsbD (W.bits * j + r - (W.bits * q + o))) =
      if j = q then decide (o ≤ r) && word.getMsbD (r - o)
      else if j = q + 1 then word.getMsbD (r + (W.bits - o))
      else false := by
  rcases Nat.lt_trichotomy j q with h | rfl | h
  · have := Nat.mul_le_mul_left W.bits h
    rw [Nat.mul_succ] at this
    rw [if_neg (by omega), if_neg (by omega), decide_eq_false (by omega), Bool.false_and]
  · rw [if_pos rfl, Nat.add_sub_add_left]
    simp only [Nat.add_le_add_iff_left]
  · rw [if_neg (by omega)]
    by_cases h1 : j = q + 1
    · subst h1
      rw [if_pos rfl, Nat.mul_succ, decide_eq_true (by omega), Bool.true_and]
      congr 1
      omega
    · have := Nat.mul_le_mul_left W.bits (show q + 2 ≤ j by omega)
      rw [Nat.mul_add] at this
      rw [if_neg h1, word.getMsbD_of_ge _ (by omega), Bool.and_false]

private theorem getMsbD_modify_or (storage : Array (Word W)) (word : Word W) {q : Nat}
    (hq : q < storage.size) (j r : Nat) :
    ((storage.modify q (· ||| word))[j]?.getD 0).getMsbD r =
      ((storage[j]?.getD 0).getMsbD r || (decide (j = q) && word.getMsbD r)) := by
  rw [Array.getElem?_modify]
  by_cases h : q = j
  · subst h
    rw [if_pos rfl, Array.getElem?_eq_getElem hq, Option.map_some, Option.getD_some,
      Option.getD_some, BitVec.getMsbD_or, decide_eq_true rfl, Bool.true_and]
  · rw [if_neg h, decide_eq_false (Ne.symm h), Bool.false_and, Bool.or_false]

/-- A write ors its word into the stored bits from the cursor on. -/
theorem bit_put (word : Word W) (count i : Nat) (hr : b.HasRoom) :
    (b.put word count).bit i =
      (b.bit i || (decide (b.position ≤ i) && word.getMsbD (i - b.position))) := by
  have hlt := Nat.mod_lt i W.bits_pos
  have key := getMsbD_sub_eq word (q := b.position / W.bits) (j := i / W.bits)
    (Nat.mod_lt b.position W.bits_pos) hlt
  rw [Nat.div_add_mod, Nat.div_add_mod] at key
  rw [key, bit_eq, bit_eq, put]
  by_cases h0 : b.position % W.bits = 0
  · have hq : b.position / W.bits < b.storage.size := by
      rw [HasRoom, if_pos (isAligned_iff.2 h0)] at hr
      exact hr
    rw [if_pos h0, getMsbD_modify_or _ _ hq, h0]
    by_cases hj : i / W.bits = b.position / W.bits
    · simp [hj]
    · have hz := word.getMsbD_of_ge (i % W.bits + (W.bits - 0)) (by omega)
      rw [if_neg hj, decide_eq_false hj, hz, ite_self, Bool.false_and]
  · have hq : b.position / W.bits + 1 < b.storage.size := by
      rw [HasRoom, if_neg (by rwa [isAligned_iff])] at hr
      exact hr
    rw [if_neg h0, getMsbD_modify_or _ _ (by rwa [Array.size_modify]),
      getMsbD_modify_or _ _ (by omega), BitVec.getMsbD_ushiftRight, BitVec.getMsbD_shiftLeft,
      Bool.or_assoc]
    congr 1
    by_cases hj : i / W.bits = b.position / W.bits
    · have hle : decide (b.position % W.bits ≤ i % W.bits) =
          !decide (i % W.bits < b.position % W.bits) := by
        rw [← decide_not, decide_eq_decide, Nat.not_lt]
      have hne : ¬ i / W.bits = b.position / W.bits + 1 := by omega
      rw [if_pos hj, hle, decide_eq_true hj, decide_eq_true hlt, decide_eq_false hne,
        Bool.true_and, Bool.true_and, Bool.false_and, Bool.or_false]
    · simp [hj]

theorem ZeroTail.put (hz : b.ZeroTail) (hr : b.HasRoom) {word : Word W} {count : Nat}
    (hf : word.Fits count) : (b.put word count).ZeroTail := by
  intro i hi
  rw [position_put] at hi
  rw [bit_put _ _ _ hr, hz i (by omega), hf.getMsbD_eq_false (by omega), Bool.and_false,
    Bool.or_false]

theorem Sound.put (hs : b.Sound) (hr : b.HasRoom) {word : Word W} {count : Nat}
    (hf : word.Fits count) : (b.put word count).Sound where
  two_le_size := by rw [size_storage_put]; exact hs.two_le_size
  position_le := by
    have := hasRoom_iff.1 hr
    have := hf.1
    rw [size_storage_put, position_put]
    omega
  tail_zero := hs.zeroTail.put hr hf

theorem content_put (hs : b.Sound) (hr : b.HasRoom) {word : Word W} {count : Nat}
    (hf : word.Fits count) :
    (b.put word count).content = b.content ++ word.toBits.take count := by
  rw [(hs.put hr hf).content_eq_map, hs.content_eq_map, word.take_toBits hf.1, position_put,
    List.range_add, List.map_append, List.map_map]
  congr 1
  · refine List.map_congr_left fun i hi => ?_
    rw [bit_put _ _ _ hr, decide_eq_false (by simpa using hi), Bool.false_and, Bool.or_false]
  · refine List.map_congr_left fun i _ => ?_
    rw [Function.comp_apply, bit_put _ _ _ hr, hs.tail_zero _ (Nat.le_add_right ..),
      decide_eq_true (Nat.le_add_right ..), Nat.add_sub_cancel_left, Bool.true_and, Bool.false_or]

/-! ## Sequences of words -/

theorem HasRoomFor.hasRoom {count : Nat} (hr : b.HasRoomFor count) (h : count ≠ 0) :
    b.HasRoom := by
  have hc := (hasRoomFor_iff.1 hr).resolve_left h
  have := Bits.le_ceilDiv_mul count W.bits_pos
  have : 1 ≤ Bits.ceilDiv count W.bits := by
    refine Nat.pos_of_ne_zero fun h0 => ?_
    rw [h0] at this
    omega
  have := Nat.mul_le_mul_right W.bits this
  exact hasRoom_iff.2 (by omega)

theorem HasRoomFor.put {count : Nat} (hr : b.HasRoomFor count) (h : W.bits ≤ count)
    (word : Word W) : (b.put word W.bits).HasRoomFor (count - W.bits) := by
  have hW := W.bits_pos
  have hc := (hasRoomFor_iff.1 hr).resolve_left (by omega)
  have hd := Bits.ceilDiv_add_mul (count - W.bits) 1 hW
  rw [Nat.one_mul, Nat.sub_add_cancel h] at hd
  rw [hd, Nat.succ_mul] at hc
  rw [hasRoomFor_iff, position_put, size_storage_put]
  omega

/-- There is room for whole words if there is room for the first of them and then for the others. -/
theorem hasRoomFor_mul_succ (word : Word W) (n : Nat) :
    b.HasRoomFor ((n + 1) * W.bits) ↔ b.HasRoom ∧ (b.put word W.bits).HasRoomFor (n * W.bits) := by
  have hW := W.bits_pos
  have hsub : (n + 1) * W.bits - W.bits = n * W.bits := by rw [Nat.succ_mul, Nat.add_sub_cancel]
  constructor
  · intro h
    have hle : W.bits ≤ (n + 1) * W.bits := Nat.le_mul_of_pos_left _ n.succ_pos
    exact ⟨h.hasRoom (by omega), hsub ▸ h.put hle word⟩
  · rintro ⟨hroom, hrest⟩
    rw [hasRoomFor_iff, position_put, size_storage_put, Bits.ceilDiv_mul_self _ hW] at hrest
    rw [hasRoomFor_iff, Bits.ceilDiv_mul_self _ hW, Nat.succ_mul]
    rw [hasRoom_iff] at hroom
    omega

private theorem Sound.foldl_put {words : List (Word W)} {count : Nat} (hs : b.Sound)
    (hw : Words.Hold words count) (hr : b.HasRoomFor count) :
    ((Words.pieces words count).foldl (fun b piece => b.put piece.1 piece.2) b).Sound ∧
      ((Words.pieces words count).foldl (fun b piece => b.put piece.1 piece.2) b).content =
        b.content ++ (Words.toBits words).take count := by
  induction words generalizing b count with
  | nil => simpa [Words.pieces] using hs
  | cons word words ih =>
    rw [Words.pieces]
    split
    · rename_i hc
      have hroom := hr.hasRoom (by have := W.bits_pos; omega)
      obtain ⟨hs', hb⟩ := ih (hs.put hroom word.fits_bits) hw.tail (hr.put hc word)
      rw [List.foldl_cons]
      refine ⟨hs', ?_⟩
      rw [hb, content_put hs hroom word.fits_bits, Words.take_toBits_cons _ _ hc,
        List.append_assoc, word.take_toBits_self]
    · split
      · rename_i h0
        rw [h0, List.take_zero, List.append_nil]
        exact ⟨hs, rfl⟩
      · rename_i hc h0
        have hle : count ≤ W.bits := by omega
        have hroom := hr.hasRoom h0
        rw [List.foldl_cons, List.foldl_nil]
        refine ⟨hs.put hroom (word.fits_keep hle), ?_⟩
        rw [content_put hs hroom (word.fits_keep hle), word.take_toBits_keep hle,
          Words.take_toBits_cons_of_le _ _ hle]

/-- At a word boundary, or-ing a word into the zero cell at the cursor lays it down there. -/
theorem ZeroTail.put_eq (hz : b.ZeroTail) (hr : b.HasRoom) (ha : b.isAligned = true) (word : Word W)
    (count : Nat) :
    b.put word count =
      { storage := b.storage.setIfInBounds b.completeCount word
        position := b.position + count } := by
  have h0 := isAligned_iff.1 ha
  have hp := Nat.div_add_mod b.position W.bits
  have hq : b.completeCount < b.storage.size := by rwa [HasRoom, if_pos ha] at hr
  have hzero := hz.getElem?_eq_zero (by rw [completeCount, Nat.mul_comm]; omega) hq
  rw [BitBuffer.put, if_pos h0, ← completeCount]
  congr 1
  refine Array.ext_getElem? fun j => ?_
  rw [Array.getElem?_modify, Array.getElem?_setIfInBounds]
  by_cases hj : b.completeCount = j
  · subst hj
    rw [if_pos rfl, if_pos rfl, if_pos hq, hzero, Option.map_some]
    exact congrArg some BitVec.zero_or
  · rw [if_neg hj, if_neg hj]

/-- A block leaves the same buffer as a write of each of its words. -/
theorem ZeroTail.putWords_eq_foldl {words : List (Word W)} {count : Nat} (hz : b.ZeroTail)
    (hw : Words.Hold words count) (hr : b.HasRoomFor count) :
    b.putWords words count =
      (Words.pieces words count).foldl (fun b piece => b.put piece.1 piece.2) b := by
  by_cases ha : b.isAligned = true
  swap
  · rw [putWords, if_neg ha]
  rw [putWords, if_pos ha]
  fun_induction Words.pieces words count generalizing b with
  | case1 count =>
    have h0 : count = 0 := by simpa [Words.Hold] using hw
    rw [h0]
    rfl
  | case2 word words count hc ih =>
    have hroom := hr.hasRoom (by have := W.bits_pos; omega)
    have ha' : (b.put word W.bits).isAligned = true := by
      rw [isAligned_iff] at ha ⊢
      rw [position_put, Nat.add_mod_right, ha]
    rw [List.foldl_cons, ← ih (hz.put hroom word.fits_bits) hw.tail (hr.put hc word) ha',
      hz.put_eq hroom ha, Nat.add_div_right _ W.bits_pos, Nat.add_assoc, Nat.add_sub_cancel' hc]
    rfl
  | case3 => rfl
  | case4 word words count hc h0 =>
    rw [List.foldl_cons, List.foldl_nil, hz.put_eq (hr.hasRoom h0) ha]
    rfl

theorem Sound.putWords {words : List (Word W)} {count : Nat} (hs : b.Sound)
    (hw : Words.Hold words count) (hr : b.HasRoomFor count) : (b.putWords words count).Sound := by
  rw [hs.zeroTail.putWords_eq_foldl hw hr]
  exact (hs.foldl_put hw hr).1

theorem content_putWords {words : List (Word W)} {count : Nat} (hs : b.Sound)
    (hw : Words.Hold words count) (hr : b.HasRoomFor count) :
    (b.putWords words count).content = b.content ++ (Words.toBits words).take count := by
  rw [hs.zeroTail.putWords_eq_foldl hw hr]
  exact (hs.foldl_put hw hr).2

/-! ## Growth, reset and draining -/

theorem bit_resize (b : BitBuffer W) (length i : Nat) :
    (b.resize length).bit i = (decide (i < length * W.bits) && b.bit i) := by
  have hlt : i < length * W.bits ↔ i / W.bits < length :=
    (Nat.div_lt_iff_lt_mul W.bits_pos).symm
  rw [bit_eq, bit_eq, resize, Array.getElem?_append, Array.size_extract, Array.getElem?_extract]
  simp only [hlt, Nat.zero_add, Nat.sub_zero]
  by_cases h : i / W.bits < length
  · rw [decide_eq_true h, Bool.true_and]
    split
    · rfl
    · rw [Array.getElem?_replicate, Array.getElem?_eq_none (by omega)]
      split <;> rfl
  · rw [decide_eq_false h, Bool.false_and, if_neg (by omega), Array.getElem?_replicate,
      if_neg (by omega)]
    exact BitVec.getMsbD_zero

theorem Sound.resize (hs : b.Sound) {length : Nat} (hlength : 2 ≤ length)
    (hp : b.position ≤ length * W.bits) : (b.resize length).Sound := by
  refine ⟨?_, ?_, fun i hi => ?_⟩
  · rwa [size_storage_resize]
  · rwa [size_storage_resize, position_resize]
  · rw [bit_resize, hs.tail_zero i hi, Bool.and_false]

theorem content_resize (hs : b.Sound) {length : Nat} (hp : b.position ≤ length * W.bits) :
    (b.resize length).content = b.content := by
  have hp' : (b.resize length).position ≤ (b.resize length).storage.size * W.bits := by
    rwa [size_storage_resize, position_resize]
  rw [BitBuffer.content_eq_map hp', hs.content_eq_map, position_resize]
  refine List.map_congr_left fun i hi => ?_
  rw [bit_resize, decide_eq_true (Nat.lt_of_lt_of_le (List.mem_range.1 hi) hp), Bool.true_and]

theorem Sound.enlarge (hs : b.Sound) (shift : Nat) : (b.enlarge shift).Sound :=
  have hle : b.storage.size ≤ b.storage.size <<< shift := Nat.le_shiftLeft
  hs.resize (Nat.le_trans hs.two_le_size hle)
    (Nat.le_trans hs.position_le (Nat.mul_le_mul_right _ hle))

theorem content_enlarge (hs : b.Sound) (shift : Nat) : (b.enlarge shift).content = b.content :=
  content_resize hs (Nat.le_trans hs.position_le (Nat.mul_le_mul_right _ Nat.le_shiftLeft))

/-- Growth leaves the last word free if it was free before, or if the storage doubles at least. -/
theorem Sound.nearEnd_enlarge (hs : b.Sound) {shift : Nat} (h : b.nearEnd = false ∨ 1 ≤ shift) :
    (b.enlarge shift).nearEnd = false := by
  have hsize := Nat.mul_le_mul_right W.bits hs.two_le_size
  have hposition := hs.position_le
  have hW := W.bits_pos
  rw [Bool.eq_false_iff, Ne, nearEnd_iff, size_storage_enlarge, position_enlarge]
  rcases h with h | h
  · have hle : b.storage.size ≤ b.storage.size <<< shift := Nat.le_shiftLeft
    have hmul := Nat.mul_le_mul_right W.bits hle
    have hfree := mt nearEnd_iff.2 (Bool.eq_false_iff.1 h)
    omega
  · have hle : b.storage.size * 2 ≤ b.storage.size <<< shift := by
      rw [Nat.shiftLeft_eq]
      exact Nat.mul_le_mul_left _ (Nat.pow_le_pow_right Nat.two_pos h)
    have hmul := Nat.mul_le_mul_right W.bits hle
    rw [Nat.mul_right_comm] at hmul
    omega

/-- An append finds room and leaves room, since it grows the buffer as soon as there is none. -/
theorem Sound.append?_eq (hs : b.Sound) (hn : b.nearEnd = false) {word : Word W} {count : Nat}
    (hf : word.Fits count) :
    ∃ b', b.append? word count = some b' ∧ b'.Sound ∧ b'.nearEnd = false ∧
      b'.content = b.content ++ word.toBits.take count := by
  have hr := hasRoom_of_nearEnd hn
  have hput := hs.put hr hf
  have hcontent := content_put hs hr hf
  have hwrite : b.append? word count = some
      (if (b.put word count).nearEnd then (b.put word count).enlarge 1 else b.put word count) := by
    rw [append?, write?, if_pos hr, Option.map_some]
  rw [hwrite]
  cases hnear : (b.put word count).nearEnd with
  | false => exact ⟨_, rfl, hput, hnear, hcontent⟩
  | true =>
    exact ⟨(b.put word count).enlarge 1, rfl, hput.enlarge 1,
      hput.nearEnd_enlarge (.inr (Nat.le_refl 1)), (content_enlarge hput 1).trans hcontent⟩

theorem Sound.grownFor (hs : b.Sound) (count : Nat) : (b.grownFor count).Sound := by
  rw [BitBuffer.grownFor]
  split
  · exact hs
  · exact hs.enlarge _

theorem content_grownFor (hs : b.Sound) (count : Nat) :
    (b.grownFor count).content = b.content := by
  rw [grownFor]
  split
  · rfl
  · exact content_enlarge hs _

theorem sound_withCapacity (bytes : Nat) : (withCapacity bytes : BitBuffer W).Sound := by
  refine ⟨?_, Nat.zero_le _, fun i _ => ?_⟩
  · rw [withCapacity, Array.size_replicate]
    exact Nat.le_max_left ..
  · rw [bit_eq, withCapacity, Array.getElem?_replicate]
    split <;> exact BitVec.getMsbD_zero

theorem content_withCapacity (bytes : Nat) : (withCapacity bytes : BitBuffer W).content = [] :=
  List.take_zero

/-- A buffer that is reset is an empty buffer of the same capacity. -/
theorem Sound.reset_eq (hs : b.Sound) : b.reset = withCapacity b.size := by
  have hc : capacityWords W b.size = b.storage.size := by
    rw [capacityWords, size, Bits.ceilDiv_mul_self _ W.bytes_pos, Nat.max_eq_right hs.two_le_size]
  rw [reset, withCapacity, hc]
  congr 1
  refine Array.ext_getElem? fun j => ?_
  rw [Cells.fillFirst, Cells.getElem?_overwrite, Array.getElem?_replicate]
  simp only [List.length_replicate, Nat.zero_le, true_and, Nat.zero_add, Nat.sub_zero]
  by_cases hj : j < b.storage.size
  · rw [if_pos hj]
    split
    · rename_i h
      rw [List.getElem?_replicate, if_pos h.1]
    · rename_i h
      refine hs.zeroTail.getElem?_eq_zero ((Bits.ceilDiv_le_iff W.bits_pos).1 ?_) hj
      omega
  · rw [if_neg (by omega), if_neg hj, Array.getElem?_eq_none (by omega)]

private theorem Sound.getElem?_drain (hs : b.Sound) {j : Nat} (hj : j < b.storage.size) :
    b.drain.storage[j]? = some (if j = 0 then b.storage[b.completeCount]?.getD 0 else 0) := by
  have hp := Nat.div_add_mod b.position W.bits
  have ho := Nat.mod_lt b.position W.bits_pos
  have hfill : (Cells.fillFirst b.storage b.completeCount 0)[j]? =
      if j = b.completeCount then b.storage[b.completeCount]? else some 0 := by
    rw [Cells.fillFirst, Cells.getElem?_overwrite]
    simp only [List.length_replicate, Nat.zero_le, true_and, Nat.zero_add, Nat.sub_zero]
    rcases Nat.lt_trichotomy j b.completeCount with h | h | h
    · rw [if_pos ⟨h, hj⟩, if_neg (Nat.ne_of_lt h), List.getElem?_replicate, if_pos h]
    · rw [if_neg (by omega), if_pos h, h]
    · have := Nat.mul_le_mul_left W.bits h
      rw [← completeCount] at hp
      rw [Nat.mul_succ] at this
      rw [if_neg (by omega), if_neg (by omega),
        hs.zeroTail.getElem?_eq_zero (by rw [Nat.mul_comm]; omega) hj]
  rw [drain, ← completeCount]
  split
  · rename_i carried hc
    rw [Array.getElem?_setIfInBounds, Array.getElem?_setIfInBounds, hfill]
    grind
  · rename_i hc
    rw [hfill, hc]
    have := Array.getElem?_eq_none_iff.1 hc
    rw [if_neg (by omega)]
    simp

/-- Draining moves the bits after the complete words to the front. -/
theorem Sound.bit_drain (hs : b.Sound) (i : Nat) :
    b.drain.bit i = b.bit (b.completeCount * W.bits + i) := by
  have hp := Nat.div_add_mod b.position W.bits
  have ho := Nat.mod_lt b.position W.bits_pos
  rw [← completeCount, Nat.mul_comm] at hp
  by_cases hi : i < W.bits
  · have h0 := hs.size_pos
    rw [bit_eq, bit_eq, Nat.div_eq_of_lt hi, hs.getElem?_drain h0, if_pos rfl, Option.getD_some,
      Nat.mul_comm, Nat.mul_add_div W.bits_pos, Nat.div_eq_of_lt hi, Nat.add_zero,
      Nat.mul_add_mod]
  · have h1 := Nat.div_pos (Nat.not_lt.1 hi) W.bits_pos
    rw [hs.tail_zero _ (by omega), bit_eq]
    by_cases hj : i / W.bits < b.storage.size
    · rw [hs.getElem?_drain hj, if_neg (by omega)]
      exact BitVec.getMsbD_zero
    · rw [Array.getElem?_eq_none (by rw [size_storage_drain]; omega)]
      exact BitVec.getMsbD_zero

theorem completeCount_mul_add_offset (b : BitBuffer W) :
    b.completeCount * W.bits + b.offset = b.position := by
  rw [completeCount, offset, Nat.mul_comm, Nat.div_add_mod]

theorem offset_lt (b : BitBuffer W) : b.offset < W.bits := Nat.mod_lt _ W.bits_pos

theorem Sound.drain (hs : b.Sound) : b.drain.Sound := by
  have hp := b.completeCount_mul_add_offset
  refine ⟨?_, ?_, fun i hi => ?_⟩
  · rw [size_storage_drain]
    exact hs.two_le_size
  · have := hs.position_le
    rw [size_storage_drain, position_drain]
    omega
  · rw [position_drain] at hi
    rw [hs.bit_drain]
    exact hs.tail_zero _ (by omega)

theorem content_drain (hs : b.Sound) :
    b.drain.content = b.content.drop (b.completeCount * W.bits) := by
  rw [hs.drain.content_eq_map, hs.content_eq_map, position_drain,
    ← b.completeCount_mul_add_offset, List.range_add, List.map_append,
    List.drop_left' (by simp), List.map_map]
  exact List.map_congr_left fun i _ => hs.bit_drain i

/-! ## Observations -/

/-- Past the content, the storage spells zeros. -/
theorem Sound.take_toBits_storage (hs : b.Sound) {count : Nat} (h : b.position ≤ count)
    (hle : count ≤ b.storage.size * W.bits) :
    (Words.toBits b.storage.toList).take count =
      b.content ++ List.replicate (count - b.position) false := by
  obtain ⟨rest, rfl⟩ := Nat.exists_eq_add_of_le h
  rw [Words.take_toBits b.storage.toList hle, List.range_add, List.map_append, List.map_map,
    hs.content_eq_map, Nat.add_sub_cancel_left]
  congr 1
  rw [List.eq_replicate_iff]
  refine ⟨by simp, fun bit hb => ?_⟩
  obtain ⟨i, _, rfl⟩ := List.mem_map.1 hb
  exact hs.tail_zero _ (Nat.le_add_right ..)

theorem completeWords_eq (b : BitBuffer W) :
    b.completeWords = b.storage.toList.take b.completeCount := by
  rw [completeWords, Array.toList_extract, List.extract_eq_take_drop, List.drop_zero, Nat.sub_zero]

theorem writtenWords_eq (b : BitBuffer W) :
    b.writtenWords = b.storage.toList.take b.writtenCount := by
  rw [writtenWords, Array.toList_extract, List.extract_eq_take_drop, List.drop_zero, Nat.sub_zero]

/-- The complete words spell the content up to the last word boundary. -/
theorem toBits_completeWords (b : BitBuffer W) :
    Words.toBits b.completeWords = b.content.take (b.completeCount * W.bits) := by
  have hp := b.completeCount_mul_add_offset
  rw [completeWords_eq, Words.toBits_take, content, List.take_take, Nat.min_eq_left (by omega)]

theorem Sound.length_completeWords (hs : b.Sound) : b.completeWords.length = b.completeCount := by
  rw [completeWords_eq, List.length_take, Array.length_toList,
    Nat.min_eq_left (completeCount_le_size hs.position_le)]

/-- The word that is written in part spells the content from the last word boundary on. -/
theorem Sound.toBits_partialWord (hs : b.Sound) :
    (b.partialWord?.elim [] fun piece => piece.1.toBits.take piece.2) =
      b.content.drop (b.completeCount * W.bits) := by
  have hp := b.completeCount_mul_add_offset
  rw [← content_drain hs, hs.drain.content_eq_map, position_drain, partialWord?]
  by_cases ha : b.isAligned = true
  · have h0 : b.offset = 0 := isAligned_iff.1 ha
    rw [if_pos ha, h0]
    rfl
  · rw [if_neg ha, Option.elim_some, Word.take_toBits _ (Nat.le_of_lt b.offset_lt)]
    refine List.map_congr_left fun i hi => ?_
    have hi : i < W.bits := Nat.lt_trans (List.mem_range.1 hi) b.offset_lt
    rw [hs.bit_drain, bit_eq, Nat.mul_comm, Nat.mul_add_div W.bits_pos, Nat.div_eq_of_lt hi,
      Nat.add_zero, Nat.mul_add_mod, Nat.mod_eq_of_lt hi, Array.getD_eq_getD_getElem?]

theorem hold_writtenWords_iff :
    Words.Hold b.writtenWords b.position ↔ b.position ≤ b.storage.size * W.bits := by
  have hle := Bits.le_ceilDiv_mul b.position W.bits_pos
  rw [Words.Hold, writtenWords_eq, List.length_take, Array.length_toList, writtenCount]
  constructor <;> intro h
  · exact Nat.le_trans h (Nat.mul_le_mul_right _ (Nat.min_le_right ..))
  · rwa [Nat.min_eq_left ((Bits.ceilDiv_le_iff W.bits_pos).2 h)]

theorem take_toBits_writtenWords (b : BitBuffer W) :
    (Words.toBits b.writtenWords).take b.position = b.content := by
  rw [writtenWords_eq, Words.toBits_take, List.take_take, Nat.min_eq_left, content]
  exact Bits.le_ceilDiv_mul _ W.bits_pos

private theorem ceilDiv_eight_le (count : Nat) :
    Bits.ceilDiv count 8 ≤ Bits.ceilDiv count W.bits * W.bytes := by
  have h := Bits.le_ceilDiv_mul count W.bits_pos
  rw [Bits.ceilDiv_le_iff (by decide), Nat.mul_assoc, Nat.mul_comm W.bytes, ← W.bits_eq]
  exact h

theorem Sound.length_toBytes (hs : b.Sound) :
    b.toBytes.length = Bits.ceilDiv b.position 8 := by
  have hc := (Bits.ceilDiv_le_iff W.bits_pos).2 hs.position_le
  rw [toBytes, List.length_take, Words.length_toBytes, writtenWords_eq, List.length_take,
    Array.length_toList, writtenCount, Nat.min_eq_left hc, Nat.min_eq_left (ceilDiv_eight_le _)]

/-- The bytes of a buffer spell its content and zeros up to a whole byte. -/
theorem Sound.ofBytes_toBytes (hs : b.Sound) : Bits.ofBytes b.toBytes = Bits.padTo 8 b.content := by
  have hle : 8 * Bits.ceilDiv b.position 8 ≤ b.writtenCount * W.bits := by
    rw [W.bits_eq, Nat.mul_left_comm]
    exact Nat.mul_le_mul_left 8 (ceilDiv_eight_le _)
  have hc : b.writtenCount * W.bits ≤ b.storage.size * W.bits :=
    Nat.mul_le_mul_right _ ((Bits.ceilDiv_le_iff W.bits_pos).2 hs.position_le)
  have hlb := Bits.le_ceilDiv_mul b.position (by decide : 0 < 8)
  rw [toBytes, Bits.ofBytes_take, Words.ofBytes_toBytes, writtenWords_eq, Words.toBits_take,
    List.take_take, Nat.min_eq_left hle, hs.take_toBits_storage (by omega) (by omega), Bits.padTo,
    hs.length_content, Nat.mul_comm 8]

end BitBuffer
end BitTransducer
