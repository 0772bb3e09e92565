import BitTransducer.Proofs.BitBuffer.Content
import BitTransducer.Proofs.Word.Shift

/-! # Operations cell by cell

What an operation on a bit buffer does to the storage, with nothing taken for granted: every cell
that is touched and every slice that is taken has to exist, and every shift has to be by less than a
word. The operations have a result in just the cases in which they say that there is room, and the
same one; to empty a buffer takes a cursor that is within the storage.

Main statements: `writeChecked?_eq`, `writeBlockChecked?_eq`, `resetChecked?_eq` and
`drainChecked?_eq`. -/

namespace BitTransducer

namespace Cells

variable {α : Type}

/-- The first `count` members of a list that has as many. -/
def slice? (xs : List α) (count : Nat) : Option (List α) :=
  if count ≤ xs.length then some (xs.take count) else none

/-- Lays `values` over the cells from `start` on, all of which exist. -/
def overwrite? (cells : Array α) (start : Nat) (values : List α) : Option (Array α) :=
  if start + values.length ≤ cells.size then some (overwrite cells start values) else none

theorem overwrite_append (cells : Array α) (start : Nat) (values more : List α) :
    overwrite cells start (values ++ more) =
      overwrite (overwrite cells start values) (start + values.length) more := by
  induction values generalizing cells start with
  | nil => rfl
  | cons value values ih =>
    rw [List.cons_append, overwrite, ih, overwrite, List.length_cons, Nat.add_assoc,
      Nat.add_comm 1]

end Cells

namespace Words

variable {W : Width}

theorem hold_iff {words : List (Word W)} {count : Nat} :
    Hold words count ↔ Bits.ceilDiv count W.bits ≤ words.length :=
  (Bits.ceilDiv_le_iff W.bits_pos).symm

/-- The first bits of words are whole words and the first bits of the next one. -/
theorem pieces_eq (words : List (Word W)) (count : Nat) :
    pieces words count =
      (words.take (count / W.bits)).map (·, W.bits) ++
        if count % W.bits = 0 then []
        else words[count / W.bits]?.toList.map fun word =>
          (word.keep (count % W.bits), count % W.bits) := by
  fun_induction pieces words count with
  | case1 => simp
  | case2 word words count hc ih =>
    rw [Nat.div_eq_sub_div W.bits_pos hc, Nat.mod_eq_sub_mod hc, List.take_succ_cons,
      List.getElem?_cons_succ, ih]
    rfl
  | case3 => simp
  | case4 word words count hc h0 =>
    have hlt : count < W.bits := Nat.not_le.1 hc
    rw [Nat.div_eq_of_lt hlt, Nat.mod_eq_of_lt hlt, if_neg h0]
    rfl

theorem map_fst_pieces (words : List (Word W)) (count : Nat) :
    (pieces words count).map (·.1) =
      words.take (count / W.bits) ++
        if count % W.bits = 0 then []
        else words[count / W.bits]?.toList.map (·.keep (count % W.bits)) := by
  rw [pieces_eq, List.map_append, List.map_map]
  congr 1
  · exact List.map_id _
  · split
    · rfl
    · rw [List.map_map]
      rfl

/-- The first bits of words are found in the words that they take. -/
theorem pieces_take (words : List (Word W)) {count n : Nat} (h : Bits.ceilDiv count W.bits ≤ n) :
    pieces (words.take n) count = pieces words count := by
  rw [Bits.ceilDiv_eq count W.bits_pos] at h
  rw [pieces_eq, pieces_eq, List.take_take, Nat.min_eq_left (Nat.le_of_add_right_le h)]
  by_cases h0 : count % W.bits = 0
  · rw [if_pos h0, if_pos h0]
  · rw [if_neg h0] at h
    rw [if_neg h0, if_neg h0, List.getElem?_take_of_lt h]

end Words

namespace BitBuffer

variable {W : Width} {b : BitBuffer W}

/-! ## Single writes -/

/-- Ors a word into a cell that exists. -/
def orCell? (storage : Array (Word W)) (index : Nat) (word : Word W) : Option (Array (Word W)) :=
  if index < storage.size then some (storage.modify index (· ||| word)) else none

def writeChecked? (b : BitBuffer W) (word : Word W) (count : Nat) : Option (BitBuffer W) := do
  let index := b.position / W.bits
  let offset := b.position % W.bits
  if offset = 0 then
    let storage ← orCell? b.storage index word
    return { storage, position := b.position + count }
  else
    let head ← shiftRight? word offset
    let storage ← orCell? b.storage index head
    let spill ← shiftLeft? word (W.bits - offset)
    let storage ← orCell? storage (index + 1) spill
    return { storage, position := b.position + count }

/-- A single write has room when the one or two cells that it touches exist, and it shifts by less
than a word wherever the cursor is. -/
theorem writeChecked?_eq (b : BitBuffer W) (word : Word W) (count : Nat) :
    b.writeChecked? word count = b.write? word count := by
  have hlt := Nat.mod_lt b.position W.bits_pos
  obtain ⟨storage, position⟩ := b
  by_cases h0 : position % W.bits = 0
  · have ha : isAligned { storage, position } = true := isAligned_iff.2 h0
    simp only [writeChecked?, write?, HasRoom, completeCount, put, orCell?, if_pos h0, if_pos ha]
    by_cases hr : position / W.bits < storage.size
    · rw [if_pos hr, if_pos (Nat.succ_le_of_lt hr)]
      rfl
    · rw [if_neg hr, if_neg (fun h => hr (Nat.lt_of_succ_le h))]
      rfl
  · have ha : ¬ isAligned { storage, position } = true := mt isAligned_iff.1 h0
    simp only [writeChecked?, write?, HasRoom, completeCount, put, orCell?, if_neg h0, if_neg ha,
      shiftRight?_eq _ hlt, shiftLeft?_eq _ (Nat.sub_lt W.bits_pos (Nat.pos_of_ne_zero h0)),
      Option.bind_eq_bind, Option.bind_some]
    by_cases hr : position / W.bits + 1 < storage.size
    · rw [if_pos (Nat.lt_of_succ_lt hr), Option.bind_some, Array.size_modify, if_pos hr,
        if_pos (Nat.succ_le_of_lt hr)]
      rfl
    · rw [if_neg (fun h => hr (Nat.lt_of_succ_le h))]
      split
      · rw [Option.bind_some, Array.size_modify, if_neg hr, Option.bind_none]
      · rfl

/-! ## Blocks -/

/-- Writes the first `count` bits of `words` at a word boundary: the whole words as a block, and the
first bits of the next one over the cell after them. -/
def writeBlockChecked? (b : BitBuffer W) (words : List (Word W)) (count : Nat) :
    Option (BitBuffer W) := do
  let start := b.position / W.bits
  let full ← Cells.slice? words (count / W.bits)
  let storage ← Cells.overwrite? b.storage start full
  if count % W.bits = 0 then return { storage, position := b.position + count }
  else
    let word ← words[count / W.bits]?
    let mask ← Word.highMask? (count % W.bits)
    let storage ← Cells.overwrite? storage (start + count / W.bits) [word &&& mask]
    return { storage, position := b.position + count }

theorem writeBlockChecked?_eq (ha : b.isAligned = true)
    (hp : b.position ≤ b.storage.size * W.bits) (words : List (Word W)) (count : Nat) :
    b.writeBlockChecked? words count = b.writeWords? words count := by
  have hstart := completeCount_le_size hp
  refine Option.ext fun b' => ?_
  rw [writeWords?, Option.ite_none_right_eq_some, Words.hold_iff, HasRoomFor, if_pos ha,
    Bits.ceilDiv_eq _ W.bits_pos, putWords, if_pos ha, Words.map_fst_pieces]
  by_cases h0 : count % W.bits = 0
  · simp only [writeBlockChecked?, Cells.slice?, Cells.overwrite?, Option.bind_eq_bind,
      Option.bind_eq_some_iff, Option.ite_none_right_eq_some, Option.some.injEq, if_pos h0]
    constructor
    · rintro ⟨_, ⟨hw, rfl⟩, _, ⟨hr, rfl⟩, hb⟩
      rw [List.length_take_of_le hw] at hr
      rw [List.append_nil]
      exact ⟨⟨hw, .inr hr⟩, Option.some.inj hb⟩
    · rintro ⟨⟨hw, hr⟩, rfl⟩
      rw [Nat.add_zero] at hw hr
      refine ⟨_, ⟨hw, rfl⟩, _, ⟨?_, rfl⟩, by rw [List.append_nil]; rfl⟩
      rw [List.length_take_of_le hw]
      rcases hr with rfl | hr
      · rwa [Nat.zero_div]
      · exact hr
  · simp only [writeBlockChecked?, Cells.slice?, Cells.overwrite?, Option.bind_eq_bind,
      Option.bind_eq_some_iff, Option.ite_none_right_eq_some, Option.some.injEq, if_neg h0,
      Word.highMask?_eq]
    constructor
    · rintro ⟨_, ⟨hw, rfl⟩, _, ⟨-, rfl⟩, word, hword, _, rfl, _, ⟨hr, rfl⟩, hb⟩
      obtain ⟨hlt, -⟩ := List.getElem?_eq_some_iff.1 hword
      rw [Cells.size_overwrite] at hr
      rw [hword, Cells.overwrite_append, List.length_take_of_le hw]
      exact ⟨⟨hlt, .inr hr⟩, Option.some.inj hb⟩
    · rintro ⟨⟨hlt, hr⟩, rfl⟩
      have hw : count / W.bits ≤ words.length := Nat.le_of_succ_le hlt
      have hword := List.getElem?_eq_getElem (Nat.lt_of_succ_le hlt)
      have hroom : b.position / W.bits + (count / W.bits + 1) ≤ b.storage.size :=
        hr.resolve_left (by rintro rfl; exact h0 (Nat.zero_mod _))
      refine ⟨_, ⟨hw, rfl⟩, _, ⟨?_, rfl⟩, _, hword, _, rfl, _, ⟨?_, rfl⟩, ?_⟩
      · rw [List.length_take_of_le hw]
        exact Nat.le_of_succ_le hroom
      · rw [Cells.size_overwrite]
        exact hroom
      · rw [hword, Cells.overwrite_append, List.length_take_of_le hw]
        rfl

theorem putWords_writtenWords (b source : BitBuffer W) :
    b.putWords source.writtenWords source.position =
      b.putWords source.storage.toList source.position := by
  simp only [putWords, writtenWords_eq, Words.pieces_take _ (Nat.le_refl source.writtenCount)]

/-! ## Giving up content -/

/-- Sets the first `count` cells to zero, all of which exist. -/
def clearFirst? (storage : Array (Word W)) (count : Nat) : Option (Array (Word W)) :=
  Cells.overwrite? storage 0 (List.replicate count 0)

def resetChecked? (b : BitBuffer W) : Option (BitBuffer W) := do
  let storage ← clearFirst? b.storage (Bits.ceilDiv b.position W.bits)
  return { storage, position := 0 }

/-- Clears the complete words and moves the word after them, if there is one, to the front. -/
def drainChecked? (b : BitBuffer W) : Option (BitBuffer W) := do
  let count := b.position / W.bits
  let storage ← clearFirst? b.storage count
  match storage[count]? with
  | none => return { storage, position := b.position - count * W.bits }
  | some carried =>
    let storage ← Cells.overwrite? storage 0 [carried]
    let storage ← Cells.overwrite? storage count [0]
    return { storage, position := b.position - count * W.bits }

theorem clearFirst?_eq {storage : Array (Word W)} {count : Nat} (h : count ≤ storage.size) :
    clearFirst? storage count = some (Cells.fillFirst storage count 0) := by
  rw [clearFirst?, Cells.overwrite?, List.length_replicate, Nat.zero_add, if_pos h]
  rfl

theorem resetChecked?_eq (hp : b.position ≤ b.storage.size * W.bits) :
    b.resetChecked? = some b.reset := by
  rw [resetChecked?, clearFirst?_eq ((Bits.ceilDiv_le_iff W.bits_pos).2 hp)]
  rfl

theorem drainChecked?_eq (hp : b.position ≤ b.storage.size * W.bits) (h0 : b.completeCount ≠ 0) :
    b.drainChecked? = some b.drain := by
  have hcount := completeCount_le_size hp
  have hmod : b.position - b.completeCount * W.bits = b.position % W.bits := by
    rw [completeCount, Nat.mod_eq_sub_div_mul]
  have hcell : (Cells.fillFirst b.storage b.completeCount 0)[b.completeCount]? =
      b.storage[b.completeCount]? := by
    rw [Cells.fillFirst, Cells.getElem?_overwrite, List.length_replicate, if_neg (by omega)]
  rw [completeCount] at hcount hmod hcell h0
  simp only [drainChecked?, drain, clearFirst?_eq hcount, Option.bind_eq_bind, Option.bind_some,
    hcell, hmod]
  cases hc : b.storage[b.position / W.bits]? with
  | none => rfl
  | some carried =>
    obtain ⟨hlt, -⟩ := Array.getElem?_eq_some_iff.1 hc
    have hfirst : 0 + 1 ≤ b.storage.size :=
      Nat.succ_le_of_lt (Nat.lt_of_le_of_lt (Nat.zero_le _) hlt)
    simp only [Cells.overwrite?, List.length_singleton, Cells.size_fillFirst, if_pos hfirst,
      Option.bind_some, Cells.size_overwrite, if_pos (Nat.succ_le_of_lt hlt)]
    -- the two cells differ, so that it does not matter which is written first
    simp only [Cells.overwrite, Array.setIfInBounds_comm _ _ h0]
    rfl

/-- Hands the complete words to `emit` and drains the buffer; no result where cells are missing. -/
def flushWithChecked? {ε : Type} (emit : List (Word W) → Except ε Unit) (b : BitBuffer W) :
    Option (Except ε (Nat × BitBuffer W)) :=
  if b.completeCount = 0 then return .ok (0, b)
  else do
    let words ← Cells.slice? b.storage.toList b.completeCount
    match emit words with
    | .error e => return .error e
    | .ok () =>
      let drained ← b.drainChecked?
      return .ok (b.completeCount, drained)

theorem flushWithChecked?_eq {ε : Type} (hp : b.position ≤ b.storage.size * W.bits)
    (emit : List (Word W) → Except ε Unit) :
    b.flushWithChecked? emit = some (b.flushWith emit) := by
  rw [flushWithChecked?, flushWith]
  by_cases h0 : b.completeCount = 0
  · rw [if_pos h0, if_pos h0]
    rfl
  · have hslice : Cells.slice? b.storage.toList b.completeCount = some b.completeWords := by
      rw [completeWords_eq]
      exact if_pos (completeCount_le_size hp)
    rw [if_neg h0, if_neg h0, hslice, drainChecked?_eq hp h0, Option.bind_eq_bind,
      Option.bind_some]
    cases emit b.completeWords with
    | error e => rfl
    | ok => rfl

end BitBuffer
end BitTransducer
