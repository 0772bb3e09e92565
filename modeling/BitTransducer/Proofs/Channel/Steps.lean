import BitTransducer.Proofs.Channel.Progress
import BitTransducer.Proofs.Outcome

/-! # What the steps of a channel commit

One statement for each step says how it may end on a channel with a sound buffer and any sink: what
it commits when it succeeds, what when the sink fails it, and that it breaks no contract while there
is room for a write, which there is as long as the cursor is not near the end. -/

namespace BitTransducer
namespace Channel

variable {W : Width} {c : Channel W} {α : Type}

/-- The entry is a delivery of the complete words of the buffer. -/
def IsFlushOf (b : BitBuffer W) (e : SinkEntry) : Prop :=
  ∃ accepted requests, e = .delivery (Words.toBytes b.completeWords) accepted requests

theorem IsFlushOf.isFlush_ne_true {b : BitBuffer W} {e : SinkEntry} (h : IsFlushOf b e) :
    ¬ e.isFlush = true := by
  obtain ⟨accepted, requests, rfl⟩ := h
  exact Bool.false_ne_true

/-- Progress that ended with a failure to hand over words that are still buffered. -/
def FailsFlush (c c' : Channel W) (bits : List Bool) : Prop :=
  ∃ last, IsFlushOf c'.buffer last ∧ Fails c c' bits last

theorem Advances.failsFlush {c₁ c₂ : Channel W} {bits bits' : List Bool} (h : Advances c c₁ bits)
    (h' : FailsFlush c₁ c₂ bits') : FailsFlush c c₂ (bits ++ bits') :=
  h'.imp fun _ ⟨hl, hf⟩ => ⟨hl, h.fails hf⟩

theorem Advances.failsFlush_nil {c₁ c₂ : Channel W} {bits : List Bool} (h : Advances c c₁ bits)
    (h' : FailsFlush c₁ c₂ []) : FailsFlush c c₂ bits :=
  h'.imp fun _ ⟨hl, hf⟩ => ⟨hl, h.fails_nil hf⟩

/-- What is committed of words that are written one by one when a flush fails: all words up to the
one that was written then. -/
def WordPrefix (words : List (Word W)) (count : Nat) (bits : List Bool) : Prop :=
  ∃ n, n * W.bits < count ∧ bits = ((Words.toBits words).take count).take ((n + 1) * W.bits)

/-- The bits that fit before the last word of a buffer, which a block takes at most. -/
def room (b : BitBuffer W) : Nat := (b.storage.size - 1 - b.completeCount) * W.bits

/-- What is committed of words that are written block by block when a flush fails: all blocks up to
the one that was written then. The first block takes what fits into the buffer, the others what fits
into an empty one. -/
def BlockPrefix (b : BitBuffer W) (words : List (Word W)) (count : Nat) (bits : List Bool) : Prop :=
  ∃ k, room b + k * ((b.storage.size - 1) * W.bits) ≤ count ∧
    bits = (Words.toBits words).take (room b + k * ((b.storage.size - 1) * W.bits))

/-- The zeros from a position to the next word boundary. -/
def padding (W : Width) (position : Nat) : List Bool :=
  List.replicate (Bits.ceilDiv position W.bits * W.bits - position) false

theorem WordPrefix.isPrefix {words : List (Word W)} {count : Nat} {bits : List Bool}
    (h : WordPrefix words count bits) : bits <+: (Words.toBits words).take count := by
  obtain ⟨n, -, rfl⟩ := h
  exact List.take_prefix ..

theorem BlockPrefix.isPrefix {b : BitBuffer W} {words : List (Word W)} {count : Nat}
    {bits : List Bool} (h : BlockPrefix b words count bits) :
    bits <+: (Words.toBits words).take count := by
  obtain ⟨k, hk, rfl⟩ := h
  exact List.take_prefix_take_left hk

/-- The words that a flush failed to hand over are still buffered, so that what the sink took of
them belongs to the bits that were committed. -/
theorem FailsFlush.leavesPrefix {c' : Channel W} {bits bits' : List Bool} (h : FailsFlush c c' bits)
    (hbits : bits <+: bits') : LeavesPrefix c c' bits' := by
  obtain ⟨_, ⟨accepted, requests, rfl⟩, hf⟩ := h
  have hleaves : LeavesPrefix c c' (bits ++ []) := by
    apply hf.leavesPrefix
    rw [List.append_nil, SinkEntry.received, Bits.ofBytes_take, Words.ofBytes_toBytes,
      c'.buffer.toBits_completeWords, List.take_take]
    exact List.take_prefix ..
  rw [List.append_nil] at hleaves
  exact hleaves.mono hbits

theorem ends_emit (hs : c.buffer.Sound) {words : List (Word W)} (hw : words ≠ []) :
    Ends (emit words c)
      (fun _ c' => c'.buffer = c.buffer ∧
        c'.bytesWritten = c.bytesWritten + words.length * W.bytes ∧
        ∃ requests, c.sink.Extends c'.sink
          [.delivery (Words.toBytes words) (Words.toBytes words).length requests])
      (fun _ c' => c'.buffer = c.buffer ∧ ∃ accepted requests,
        Fails c c' [] (.delivery (Words.toBytes words) accepted requests))
      False := by
  refine .bind ?_
  rcases c.sink.writeAll_cases (Words.toBytes_ne_nil hw) with
    ⟨s', requests, hok, hext⟩ | ⟨text, s', accepted, requests, herr, hlt, hext, hn⟩
  · simp only [onSink, hok]
    exact ⟨rfl, rfl, requests, hext⟩
  · simp only [onSink, herr]
    exact ⟨rfl, accepted, requests, .of_entry hs rfl rfl hn hlt hext⟩

/-- A flush commits nothing, and moves the partial word to the front. -/
theorem ends_flush (hs : c.buffer.Sound) :
    Ends (flush c) (fun _ c' => Advances c c' [] ∧ c'.buffer.position = c.buffer.offset)
      (fun _ c' => c'.buffer = c.buffer ∧ FailsFlush c c' []) False := by
  have hp := c.buffer.completeCount_mul_add_offset
  refine .get_bind (.bind ?_)
  rw [BitBuffer.flushWith]
  by_cases h0 : c.buffer.completeCount = 0
  · rw [if_pos h0]
    refine ⟨.refl hs, ?_⟩
    rw [h0, Nat.zero_mul, Nat.zero_add] at hp
    exact hp.symm
  · have hw : c.buffer.completeWords ≠ [] := by
      rw [← List.length_pos_iff, hs.length_completeWords]
      exact Nat.pos_of_ne_zero h0
    rw [if_neg h0]
    refine .bind ((ends_emit hs hw).mono ?_ ?_ id)
    · intro _ c₁ h
      obtain ⟨hb, hwritten, requests, hsink⟩ := h
      refine .bind ?_
      rw [if_pos h0]
      refine ⟨.of_delivery hs.drain ?_ hwritten hsink ?_, ?_⟩
      · exact c.buffer.size_storage_drain
      · show _ ++ c.buffer.drain.content = _
        rw [c.buffer.toBits_completeWords, BitBuffer.content_drain hs, List.take_append_drop,
          List.append_nil]
      · exact c.buffer.position_drain
    · intro _ c₁ h
      obtain ⟨hb, accepted, requests, hf⟩ := h
      rw [FailsFlush, hb]
      exact ⟨rfl, _, ⟨accepted, requests, rfl⟩, hf⟩

/-- Flushes when the cursor is near the end, as all writes do: what it leaves is not near the
end. -/
private theorem ends_flush_of_nearEnd (hs : c.buffer.Sound) :
    Ends ((if c.buffer.nearEnd then flush else pure ()) c)
      (fun _ c' => Advances c c' [] ∧ c'.buffer.nearEnd = false ∧
        (c.buffer.nearEnd = true → c'.buffer.position = c.buffer.offset))
      (fun _ c' => c.buffer.nearEnd = true ∧ c'.buffer = c.buffer ∧ FailsFlush c c' []) False := by
  cases hn : c.buffer.nearEnd with
  | false => exact ⟨.refl hs, hn, nofun⟩
  | true =>
    refine (ends_flush hs).mono ?_ (fun _ c' h => ⟨rfl, h⟩) id
    intro _ c' h
    refine ⟨h.1, h.1.sound.nearEnd_eq_false ?_, fun _ => h.2⟩
    rw [h.2]
    exact c.buffer.offset_lt

/-- A write commits its bits even when its flush fails. -/
theorem ends_write (hs : c.buffer.Sound) {word : Word W} {count : Nat} (hf : word.Fits count) :
    Ends (write word count c)
      (fun _ c' => Advances c c' (word.toBits.take count) ∧ c'.buffer.nearEnd = false)
      (fun _ c' => FailsFlush c c' (word.toBits.take count) ∧
        c'.buffer.position = c.buffer.position + count ∧ c'.buffer.nearEnd = true)
      (¬ c.buffer.HasRoom) := by
  refine .get_bind (.bind ?_)
  rw [inBounds]
  split
  swap
  · assumption
  rename_i hr
  refine .bind (.get_bind ?_)
  have hp : Advances c { c with buffer := c.buffer.put word count } (word.toBits.take count) :=
    .of_buffer (hs.put hr hf) (c.buffer.size_storage_put ..) (BitBuffer.content_put hs hr hf)
  refine (ends_flush_of_nearEnd (hs.put hr hf)).mono ?_ ?_ False.elim
  · intro _ c' h
    obtain ⟨h, hn, -⟩ := h
    exact ⟨hp.trans_nil h, hn⟩
  · intro _ c' h
    obtain ⟨hn, hb, hf⟩ := h
    refine ⟨hp.failsFlush_nil hf, ?_, ?_⟩ <;> rw [hb]
    · exact c.buffer.position_put ..
    · exact hn

/-! ## Word by word -/

/-- A sequence of words is committed word by word. When a write fails, the words up to the one that
was written then are committed. -/
theorem ends_forM_write (hs : c.buffer.Sound) (words : List (Word W)) (count : Nat) :
    Ends ((Words.pieces words count).forM (fun piece => write piece.1 piece.2) c)
      (fun _ c' => Advances c c' ((Words.toBits words).take count) ∧
        (c.buffer.nearEnd = false → c'.buffer.nearEnd = false))
      (fun _ c' => ∃ bits, FailsFlush c c' bits ∧ WordPrefix words count bits)
      (¬ c.buffer.HasRoom) := by
  induction words generalizing c count with
  | nil =>
    rw [Words.pieces, Words.toBits_nil, List.take_nil]
    exact ⟨.refl hs, id⟩
  | cons word words ih =>
    have hW := W.bits_pos
    rw [Words.pieces]
    split
    · rename_i hc
      have hbits := Words.take_toBits_cons word words hc
      refine .bind ((ends_write hs word.fits_bits).mono ?_ ?_ id)
      · intro _ c₁ h
        rw [word.take_toBits_self] at h
        refine (ih h.1.sound (count - W.bits)).mono ?_ ?_ ?_
        · intro _ c' h'
          rw [hbits]
          exact ⟨h.1.trans h'.1, fun _ => h'.2 h.2⟩
        · intro _ c' h'
          obtain ⟨_, hf, n, hn, rfl⟩ := h'
          refine ⟨_, h.1.failsFlush hf, n + 1, by rw [Nat.succ_mul]; omega, ?_⟩
          rw [hbits, Nat.succ_mul (n + 1), Nat.add_comm _ W.bits, List.take_append,
            Word.length_toBits, Nat.add_sub_cancel_left,
            word.toBits.take_of_length_le (by rw [Word.length_toBits]; omega)]
        · intro h'
          exact absurd (BitBuffer.hasRoom_of_nearEnd h.2) h'
      · intro _ c₁ h
        rw [word.take_toBits_self] at h
        refine ⟨_, h.1, 0, by omega, ?_⟩
        rw [hbits, Nat.zero_add, Nat.one_mul, List.take_left' word.length_toBits]
    · split
      · rename_i h0
        rw [h0, List.take_zero]
        exact ⟨.refl hs, id⟩
      · rename_i hc h0
        have hle : count ≤ W.bits := by omega
        have hbits := Words.take_toBits_cons_of_le word words hle
        rw [← word.take_toBits_keep hle] at hbits
        rw [hbits]
        refine .bind ((ends_write hs (word.fits_keep hle)).mono ?_ ?_ id)
        · intro _ c₁ h
          exact ⟨h.1, fun _ => h.2⟩
        · intro _ c₁ h
          refine ⟨_, h.1, 0, by omega, ?_⟩
          rw [hbits, List.take_take, Nat.zero_add, Nat.one_mul, Nat.min_eq_right hle]

theorem inBounds_eq_ok {p : Prop} [Decidable p] (h : p) :
    (inBounds p : Action W Unit) c = .ok () c := by
  rw [inBounds, if_pos h]
  rfl

theorem ends_inBounds {p : Prop} [Decidable p] {f : Unit → Action W α}
    {ok : α → Channel W → Prop} {failed : StreamError → Channel W → Prop} {broken : Prop}
    (hbroken : ¬ p → broken) (h : p → Ends (f () c) ok failed broken) :
    Ends ((inBounds p >>= f) c) ok failed broken := by
  refine .bind ?_
  rw [inBounds]
  split
  · exact h ‹p›
  · exact hbroken ‹¬ p›

/-- Words that do not hold the bits asked for break the contract, if no write fails before. -/
theorem ends_writeShifted (hs : c.buffer.Sound) (words : List (Word W)) (count : Nat) :
    Ends (writeShifted words count c)
      (fun _ c' => Words.Hold words count ∧ Advances c c' ((Words.toBits words).take count) ∧
        (c.buffer.nearEnd = false → c'.buffer.nearEnd = false))
      (fun _ c' => ∃ bits, FailsFlush c c' bits ∧ WordPrefix words count bits)
      (¬ (c.buffer.HasRoom ∧ Words.Hold words count)) := by
  refine ends_inBounds (mt fun h => h.2.mono (Nat.div_mul_le_self ..)) fun _ => ?_
  refine .bind ((ends_forM_write hs words count).mono ?_ (fun _ _ h => h) (mt And.left))
  intro _ c' h
  rw [inBounds]
  split
  · exact ⟨‹_›, h⟩
  · exact mt And.right ‹_›

/-! ## Block by block -/

theorem position_add_room {b : BitBuffer W} (ha : b.isAligned = true) (hr : b.HasRoom) :
    b.position + room b + W.bits = b.storage.size * W.bits := by
  have hp := b.completeCount_mul_add_offset
  have h0 : b.offset = 0 := BitBuffer.isAligned_iff.1 ha
  have hlt : b.completeCount + 1 ≤ b.storage.size := by
    rwa [BitBuffer.HasRoom, if_pos ha] at hr
  obtain ⟨k, hk⟩ := Nat.exists_eq_add_of_le hlt
  rw [room, hk, show b.completeCount + 1 + k - 1 - b.completeCount = k by omega, Nat.add_mul,
    Nat.add_mul, Nat.one_mul]
  omega

theorem room_pos {b : BitBuffer W} (ha : b.isAligned = true) (hn : b.nearEnd = false) :
    0 < room b := by
  have := position_add_room ha (BitBuffer.hasRoom_of_nearEnd hn)
  have := mt BitBuffer.nearEnd_iff.2 (Bool.eq_false_iff.1 hn)
  omega

theorem room_div_mul (b : BitBuffer W) : room b / W.bits * W.bits = room b := by
  rw [room, Nat.mul_div_cancel _ W.bits_pos]

theorem room_eq {b : BitBuffer W} (h : b.position = 0) :
    room b = (b.storage.size - 1) * W.bits := by
  rw [room, BitBuffer.completeCount, h, Nat.zero_div, Nat.sub_zero]

theorem isAligned_of_eq_zero {b : BitBuffer W} (h : b.position = 0) :
    b.isAligned = true := by
  rw [BitBuffer.isAligned_iff, h, Nat.zero_mod]

theorem nearEnd_block {b : BitBuffer W} (ha : b.isAligned = true) (hr : b.HasRoom)
    {words : List (Word W)} {count : Nat} (hw : Words.Hold words (min count (room b))) :
    (b.putWords words (min count (room b))).nearEnd = true ↔ room b ≤ count := by
  have := position_add_room ha hr
  rw [BitBuffer.nearEnd_iff, BitBuffer.size_storage_putWords, BitBuffer.position_putWords _ _ _ hw]
  omega

/-- A block leaves the cursor at the start of the buffer, unless it is the last one. -/
theorem ends_writeBlock (hs : c.buffer.Sound) (ha : c.buffer.isAligned = true)
    (words : List (Word W)) (count : Nat) :
    Ends (writeBlock words count c)
      (fun taken c' => (taken = min count (room c.buffer) ∧ Words.Hold words taken) ∧
        Advances c c' ((Words.toBits words).take taken) ∧ c'.buffer.nearEnd = false ∧
        (room c.buffer ≤ count → c'.buffer.position = 0))
      (fun _ c' => room c.buffer ≤ count ∧
        FailsFlush c c' ((Words.toBits words).take (room c.buffer)))
      (¬ (c.buffer.HasRoom ∧ Words.Hold words count)) := by
  have hroom_iff : c.buffer.HasRoom ↔ c.buffer.completeCount < c.buffer.storage.size := by
    rw [BitBuffer.HasRoom, if_pos ha]
    rfl
  refine .get_bind (ends_inBounds (mt fun h => hroom_iff.1 h.1) fun hlt => ?_)
  have hr := hroom_iff.2 hlt
  have hroom := position_add_room ha hr
  have htaken : min count (room c.buffer) ≤ room c.buffer := Nat.min_le_right ..
  have hfor : c.buffer.HasRoomFor (min count (room c.buffer)) := by
    have hc : Bits.ceilDiv (min count (room c.buffer)) W.bits * W.bits ≤ room c.buffer :=
      Nat.mul_le_mul_right W.bits ((Bits.ceilDiv_le_iff W.bits_pos).2 htaken)
    exact BitBuffer.hasRoomFor_iff.2 (.inr (by omega))
  refine ends_inBounds (mt fun h => ⟨h.2.mono (Nat.min_le_left ..), hfor⟩) fun hboth => ?_
  have hwt : Words.Hold words (min count (room c.buffer)) := hboth.1
  refine .bind (.get_bind (.ite_bind ?_))
  have hp : Advances c { c with buffer := c.buffer.putWords words (min count (room c.buffer)) }
      ((Words.toBits words).take (min count (room c.buffer))) :=
    .of_buffer (hs.putWords hwt hfor) (c.buffer.size_storage_putWords ..)
      (BitBuffer.content_putWords hs hwt hfor)
  refine (ends_flush_of_nearEnd (hs.putWords hwt hfor)).mono ?_ ?_ False.elim
  · intro _ c' h
    obtain ⟨h, hn, hpos⟩ := h
    refine ⟨⟨rfl, hwt⟩, hp.trans_nil h, hn, fun hle => ?_⟩
    rw [hpos ((nearEnd_block ha hr hwt).2 hle)]
    show (c.buffer.putWords words (min count (room c.buffer))).position % W.bits = 0
    rw [BitBuffer.position_putWords _ _ _ hwt, Nat.min_eq_right hle, room,
      Nat.add_mul_mod_self_right]
    exact BitBuffer.isAligned_iff.1 ha
  · intro _ c' h
    obtain ⟨hn, -, hf⟩ := h
    have hle := (nearEnd_block ha hr hwt).1 hn
    refine ⟨hle, ?_⟩
    rw [← Nat.min_eq_right hle]
    exact hp.failsFlush_nil hf

/-- Blocks are committed one after the other: a first one up to the last word of the buffer, and
after it as many bits each time as an empty buffer takes. When a flush fails, the blocks up to it
are committed. The first block may be empty, at a cursor near the end, and all others hold a bit. -/
theorem ends_writeBlocks (hs : c.buffer.Sound) (ha : c.buffer.isAligned = true)
    (words : List (Word W)) {count limit : Nat} (hl : count ≤ limit)
    (hfirst : c.buffer.nearEnd = false ∨ count < limit) :
    Ends (writeBlocks limit words count c)
      (fun _ c' => Words.Hold words count ∧ Advances c c' ((Words.toBits words).take count) ∧
        (c.buffer.nearEnd = false → c'.buffer.nearEnd = false))
      (fun _ c' => ∃ bits, FailsFlush c c' bits ∧ BlockPrefix c.buffer words count bits)
      (¬ (c.buffer.HasRoom ∧ Words.Hold words count)) := by
  induction limit generalizing c words count with
  | zero =>
    obtain rfl : count = 0 := by omega
    rw [writeBlocks, List.take_zero]
    exact ⟨Nat.zero_le _, .refl hs, id⟩
  | succ limit ih =>
    by_cases h0 : count = 0
    · subst h0
      rw [writeBlocks, List.take_zero]
      exact ⟨Nat.zero_le _, .refl hs, id⟩
    rw [writeBlocks]
    swap
    · exact h0
    refine .bind ((ends_writeBlock hs ha words count).mono ?_ ?_ id)
    · intro taken c₁ h
      obtain ⟨⟨htaken, hwt⟩, h, hn, hzero⟩ := h
      by_cases hle : count ≤ room c.buffer
      · rw [Nat.min_eq_left hle] at htaken
        subst htaken
        rw [Nat.sub_self, writeBlocks]
        exact ⟨hwt, h, fun _ => hn⟩
      -- the other words go into an empty buffer, which takes a block of the full length
      rw [Nat.min_eq_right (by omega)] at htaken
      subst htaken
      have hp0 := hzero (by omega)
      have hblock : room c₁.buffer = (c.buffer.storage.size - 1) * W.bits := by
        rw [room_eq hp0, h.size_eq]
      -- only the first block may be empty, and there is a step to spare for it
      have hlimit : count - room c.buffer ≤ limit := by
        cases hfirst with
        | inl hf =>
          have := room_pos ha hf
          omega
        | inr hlt => omega
      have hdiv := room_div_mul c.buffer
      have hdrop : Words.Hold (words.drop (room c.buffer / W.bits)) (count - room c.buffer) ↔
          Words.Hold words count := by
        have hadd : room c.buffer + (count - room c.buffer) = count :=
          Nat.add_sub_cancel' (by omega)
        rw [← Words.hold_add_iff (hdiv.symm ▸ hwt), hdiv, hadd]
      refine (ih h.sound (isAligned_of_eq_zero hp0) _ hlimit (.inl hn)).mono ?_ ?_ ?_
      · intro _ c' h'
        refine ⟨hdrop.1 h'.1, ?_, fun _ => h'.2.2 hn⟩
        have h' := h.trans h'.2.1
        rwa [Words.toBits_drop, hdiv, ← List.take_add, Nat.add_sub_cancel' (by omega)] at h'
      · intro _ c' h'
        obtain ⟨_, hf, k, hk, rfl⟩ := h'
        rw [h.size_eq, hblock] at hk hf
        refine ⟨_, h.failsFlush hf, k + 1, ?_, ?_⟩ <;> rw [Nat.succ_mul, Nat.add_comm (k * _)]
        · omega
        · rw [Words.toBits_drop, hdiv, ← List.take_add]
      · intro h' h''
        exact h' ⟨BitBuffer.hasRoom_of_nearEnd hn, hdrop.2 h''.2⟩
    · intro _ c₁ h
      refine ⟨_, h.2, 0, ?_, ?_⟩ <;> rw [Nat.zero_mul, Nat.add_zero]
      exact h.1

theorem ends_writeWords (hs : c.buffer.Sound) (words : List (Word W)) (count : Nat) :
    Ends (writeWords words count c)
      (fun _ c' => Words.Hold words count ∧ Advances c c' ((Words.toBits words).take count) ∧
        (c.buffer.nearEnd = false → c'.buffer.nearEnd = false))
      (fun _ c' => ∃ bits, FailsFlush c c' bits ∧
        if c.buffer.isAligned then BlockPrefix c.buffer words count bits
        else WordPrefix words count bits)
      (¬ (c.buffer.HasRoom ∧ Words.Hold words count)) := by
  refine .get_bind ?_
  split
  · exact ends_writeBlocks hs ‹_› words (Nat.le_succ _) (.inr (Nat.lt_succ_self _))
  · exact ends_writeShifted hs words count

/-! ## Past the buffer -/

private theorem ends_write_of_eq_zero (hs : c.buffer.Sound) (h0 : c.buffer.position = 0)
    {word : Word W} {count : Nat} (hf : word.Fits count) (hlt : count < W.bits) :
    Ends (write word count c)
      (fun _ c' => Advances c c' (word.toBits.take count) ∧ c'.buffer.nearEnd = false)
      (fun _ _ => False) False := by
  refine (ends_write hs hf).mono (fun _ _ h => h) ?_ (fun h => h ?_)
  · -- a flush that fails was called for, and the cursor is still in the first word
    intro _ c' h
    obtain ⟨⟨_, -, hf⟩, hp, hn⟩ := h
    rw [h0, Nat.zero_add] at hp
    rw [hf.sound.nearEnd_eq_false (hp.symm ▸ hlt)] at hn
    exact absurd hn Bool.false_ne_true
  · exact BitBuffer.hasRoom_of_nearEnd (hs.nearEnd_eq_false (h0.symm ▸ W.bits_pos))

/-- Words that go past an empty buffer are committed when the sink took them all. -/
private theorem ends_emit_of_eq_zero (hs : c.buffer.Sound) (h0 : c.buffer.position = 0)
    {words : List (Word W)} {whole : Nat} (hw : Words.Hold words (whole * W.bits)) :
    Ends ((if whole ≠ 0 then emit (words.take whole) else pure ()) c)
      (fun _ c' => c'.buffer = c.buffer ∧
        Advances c c' ((Words.toBits words).take (whole * W.bits)))
      (fun _ c' => (∃ last, Fails c c' [] last) ∧
        LeavesPrefix c c' ((Words.toBits words).take (whole * W.bits)))
      False := by
  split
  · rename_i hwhole
    have hle : whole ≤ words.length := Nat.le_of_mul_le_mul_right hw W.bits_pos
    have hne : words.take whole ≠ [] := by
      rw [← List.length_pos_iff, List.length_take, Nat.min_eq_left hle]
      exact Nat.pos_of_ne_zero hwhole
    refine (ends_emit hs hne).mono ?_ ?_ id
    · intro _ c' h
      obtain ⟨hb, hwritten, requests, hsink⟩ := h
      refine ⟨hb, .of_delivery (hb ▸ hs) (by rw [hb]) hwritten hsink ?_⟩
      rw [hb, BitBuffer.content, h0, List.take_zero, List.append_nil, List.nil_append,
        Words.toBits_take]
    · intro _ c' h
      obtain ⟨hb, accepted, requests, hf⟩ := h
      refine ⟨⟨_, hf⟩, hf.leavesPrefix ?_⟩
      rw [hb, BitBuffer.content, h0, List.take_zero, List.nil_append, SinkEntry.received,
        Bits.ofBytes_take, Words.ofBytes_toBytes, Words.toBits_take]
      exact List.take_prefix ..
  · obtain rfl : whole = 0 := by omega
    rw [Nat.zero_mul, List.take_zero]
    exact ⟨rfl, .refl hs⟩

/-- At a word boundary a direct write commits all or nothing, though the sink may have taken a
part. It needs no room there, since its flush makes room. -/
theorem ends_writeWordsDirect (hs : c.buffer.Sound) (words : List (Word W)) (count : Nat) :
    Ends (writeWordsDirect words count c)
      (fun _ c' => Words.Hold words count ∧ Advances c c' ((Words.toBits words).take count) ∧
        (c.buffer.nearEnd = false → c'.buffer.nearEnd = false))
      (fun _ c' => LeavesPrefix c c' ((Words.toBits words).take count) ∧
        if c.buffer.isAligned then ∃ last, Fails c c' [] last
        else ∃ bits, FailsFlush c c' bits ∧ WordPrefix words count bits)
      (¬ ((c.buffer.isAligned = true ∨ c.buffer.HasRoom) ∧ Words.Hold words count)) := by
  refine .get_bind ?_
  split
  swap
  · rename_i ha
    refine (ends_writeShifted hs words count).mono (fun _ _ h => h) ?_
      (mt fun h => ⟨h.1.resolve_left ha, h.2⟩)
    intro _ c' h
    obtain ⟨bits, hf, hp⟩ := h
    exact ⟨hf.leavesPrefix hp.isPrefix, bits, hf, hp⟩
  rename_i ha
  have hcount : count / W.bits * W.bits + count % W.bits = count := by
    rw [Nat.mul_comm, Nat.div_add_mod]
  have hrest := Nat.mod_lt count W.bits_pos
  refine .bind ((ends_flush hs).mono ?_ ?_ False.elim)
  swap
  · intro _ c₁ h
    obtain ⟨-, hf⟩ := h
    refine ⟨hf.leavesPrefix List.nil_prefix, ?_⟩
    obtain ⟨last, -, hf⟩ := hf
    exact ⟨last, hf⟩
  intro _ c₁ h
  obtain ⟨h₁, hp₁⟩ := h
  -- nothing is buffered now that would have to come before the words
  have h0 : c₁.buffer.position = 0 := hp₁.trans (BitBuffer.isAligned_iff.1 ha)
  have hle : count / W.bits * W.bits ≤ count := Nat.div_mul_le_self count W.bits
  refine ends_inBounds (mt fun h => h.2.mono hle) fun hwhole => .ite_bind ?_
  refine (ends_emit_of_eq_zero h₁.sound h0 hwhole).mono ?_ ?_ False.elim
  swap
  · intro _ c₂ h
    obtain ⟨⟨last, hf⟩, hleaves⟩ := h
    refine ⟨(LeavesPrefix.of_advances h₁ hleaves).mono ?_, last, h₁.fails_nil hf⟩
    rw [List.nil_append]
    exact List.take_prefix_take_left hle
  intro _ c₂ h
  obtain ⟨hb₂, h₂⟩ := h
  have h₂ := h₁.trans h₂
  rw [List.nil_append] at h₂
  rw [← hb₂] at h0
  dsimp only
  by_cases hz : count % W.bits = 0
  swap
  · rw [if_pos hz]
    by_cases hlt : count / W.bits < words.length
    swap
    · rw [List.getElem?_eq_none (Nat.not_lt.1 hlt)]
      refine mt (fun h => Nat.lt_of_mul_lt_mul_right (a := W.bits) ?_) hlt
      have := h.2
      rw [Words.Hold] at this
      omega
    have hw : Words.Hold words count := by
      have := Nat.mul_le_mul_right W.bits hlt
      rw [Nat.succ_mul] at this
      rw [Words.Hold]
      omega
    rw [List.getElem?_eq_getElem hlt]
    refine (ends_write_of_eq_zero h₂.sound h0 (Word.fits_keep _ (Nat.le_of_lt hrest)) hrest).mono
      ?_ (fun _ _ => False.elim) False.elim
    intro _ c' h
    have h' := h₂.trans h.1
    rw [Word.take_toBits_keep _ (Nat.le_of_lt hrest),
      ← Words.take_toBits_cons_of_le _ (words.drop (count / W.bits + 1)) (Nat.le_of_lt hrest),
      ← List.drop_eq_getElem_cons, Words.toBits_drop, ← List.take_add, hcount] at h'
    exact ⟨hw, h', fun _ => h.2⟩
  · rw [if_neg (not_not_intro hz)]
    rw [hz, Nat.add_zero] at hcount
    rw [hcount] at h₂ hwhole
    exact ⟨hwhole, h₂, fun _ => h₂.sound.nearEnd_eq_false (h0.symm ▸ W.bits_pos)⟩

/-! ## The rest -/

theorem padding_eq (W : Width) (position : Nat) :
    padding W position = List.replicate
      (if position % W.bits = 0 then 0 else W.bits - position % W.bits) false := by
  have hp := Nat.div_add_mod position W.bits
  have ho := Nat.mod_lt position W.bits_pos
  rw [Nat.mul_comm] at hp
  rw [padding, Bits.ceilDiv_eq _ W.bits_pos]
  congr 1
  split <;> rw [Nat.add_mul] <;> omega

/-- Padding commits the zeros up to the next word boundary, even when its flush fails. -/
theorem ends_pad (hs : c.buffer.Sound) :
    Ends (pad c)
      (fun _ c' => Advances c c' (padding W c.buffer.position) ∧
        (c.buffer.nearEnd = false → c'.buffer.nearEnd = false))
      (fun _ c' => FailsFlush c c' (padding W c.buffer.position))
      (¬ (c.buffer.isAligned = true ∨ c.buffer.HasRoom)) := by
  rw [padding_eq, ← BitBuffer.offset]
  refine .get_bind ?_
  by_cases h0 : c.buffer.offset = 0
  · rw [if_neg (not_not_intro h0), if_pos h0]
    exact ⟨.refl hs, id⟩
  · have hle : W.bits - c.buffer.offset ≤ W.bits := Nat.sub_le ..
    rw [if_pos h0, if_neg h0, ← Word.take_toBits_zero hle]
    exact (ends_write hs (Word.fits_zero hle)).mono (fun _ _ h => ⟨h.1, fun _ => h.2⟩)
      (fun _ _ h => h.1) (mt fun h => h.resolve_left (mt BitBuffer.isAligned_iff.1 h0))

/-- Nothing happened but a request to the sink to flush, which it did if `done`. -/
structure AsksFlush (c c' : Channel W) (done : Bool) : Prop where
  buffer_eq : c'.buffer = c.buffer
  bytesWritten_eq : c'.bytesWritten = c.bytesWritten
  sink : c.sink.Extends c'.sink [.flush done]

theorem ends_flushSink (hs : c.buffer.Sound) :
    Ends (flushSink c) (fun _ c' => Advances c c' [] ∧ AsksFlush c c' true)
      (fun e c' => Fails c c' [] (.flush false) ∧ AsksFlush c c' false ∧ ∃ text, e = .write text)
      False := by
  rw [flushSink, onSink]
  rcases c.sink.flush_cases with ⟨s', hok, hsink⟩ | ⟨text, s', herr, hsink, hn⟩
  · simp only [hok]
    exact ⟨.of_flush hs hsink, rfl, rfl, hsink⟩
  · simp only [herr]
    exact ⟨.of_entry hs rfl rfl hn rfl hsink, ⟨rfl, rfl, hsink⟩, text, rfl⟩

/-- Nothing is buffered, and the last that happened at the sink is that it flushed. -/
structure Finished (c : Channel W) : Prop where
  position_eq : c.buffer.position = 0
  flushed : c.sink.journal.toList.getLast? = some (.flush true)

/-- Finishing commits the padding, and leaves nothing to be done when it succeeds. Nothing is
buffered either when all that failed is the request to the sink to flush. -/
theorem ends_finish (hs : c.buffer.Sound) :
    Ends (finish c)
      (fun _ c' => Advances c c' (padding W c.buffer.position) ∧ c'.Finished)
      (fun _ c' => LeavesPrefix c c' (padding W c.buffer.position) ∧
        ∃ last, Fails c c' (padding W c.buffer.position) last ∧
          (last.isFlush = true → c'.buffer.position = 0))
      (¬ (c.buffer.isAligned = true ∨ c.buffer.HasRoom)) := by
  refine .bind ((ends_pad hs).mono ?_ ?_ id)
  swap
  · intro _ c₁ h
    refine ⟨h.leavesPrefix (List.prefix_refl _), ?_⟩
    obtain ⟨last, hl, hf⟩ := h
    exact ⟨last, hf, fun h => absurd h hl.isFlush_ne_true⟩
  intro _ c₁ h
  obtain ⟨h₁, -⟩ := h
  refine .bind ((ends_flush h₁.sound).mono ?_ ?_ False.elim)
  swap
  · intro _ c₂ h
    have hf := h₁.failsFlush_nil h.2
    refine ⟨hf.leavesPrefix (List.prefix_refl _), ?_⟩
    obtain ⟨last, hl, hf⟩ := hf
    exact ⟨last, hf, fun h => absurd h hl.isFlush_ne_true⟩
  intro _ c₂ h
  obtain ⟨h₂, hp⟩ := h
  have h₂ := h₁.trans_nil h₂
  have h0 : c₂.buffer.position = 0 := by
    have hle := Bits.le_ceilDiv_mul c.buffer.position W.bits_pos
    rw [hp, h₁.offset_eq hs, padding, List.length_replicate, Nat.add_sub_cancel' hle,
      Nat.mul_mod_left]
  refine .bind ((ends_flushSink h₂.sound).mono ?_ ?_ False.elim)
  · intro _ c₃ h
    obtain ⟨h₃, hflush⟩ := h
    refine ⟨(h₂.trans_nil h₃).withEvents _, hflush.buffer_eq ▸ h0, ?_⟩
    rw [hflush.sink.journal_eq]
    exact List.getLast?_concat
  · intro _ c₃ h
    obtain ⟨h₃, hflush, -⟩ := h
    exact ⟨(h₂.fails_nil h₃).leavesPrefix_of_flush, _, h₂.fails_nil h₃,
      fun _ => hflush.buffer_eq ▸ h0⟩

end Channel
end BitTransducer
