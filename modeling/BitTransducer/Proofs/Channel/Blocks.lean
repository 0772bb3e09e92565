import BitTransducer.Proofs.Channel.Faults

/-! # How many blocks a write takes

Words that are written at a word boundary go into the buffer block by block. A block takes what fits
before the last word, so it may take nothing: after a flush that failed, the cursor can be at the
start of the last word. Yet the next flush is called for then, and it either fails too, which ends
the write, or leaves an empty buffer. So only the first block can be empty, and the write comes to
an end; `WritesBlocks` is that loop without a limit on the number of its blocks.

Main statements: `Ready.writeBlock_eq` and `Ready.ends_writeBlock` (one block),
`exists_writesBlocks` (the loop ends), `WritesBlocks.follows` (all blocks) and
`writeWords_block_by_block`. -/

namespace BitTransducer
namespace Channel

variable {W : Width} {c c' : Channel W} {words : List (Word W)} {count size : Nat}

/-- The cursor is between two words, at the start of the last word at most, of a storage of two
words at least. -/
structure Ready (b : BitBuffer W) : Prop where
  two_le_size : 2 ≤ b.storage.size
  aligned : b.isAligned = true
  position_le : b.position ≤ (b.storage.size - 1) * W.bits

/-- A block as it is about to be written: the channel that it finds, the words that it is taken
from, and the bits that are left to write. -/
structure Block (W : Width) where
  channel : Channel W
  words : List (Word W)
  left : Nat

namespace Block

/-- The bits that the block takes: all that are left, or as many as fit before the last word. -/
def taken (k : Block W) : Nat := min k.left (room k.channel.buffer)

/-- The buffer with the block in it, as it is before a flush. -/
def written (k : Block W) : BitBuffer W := k.channel.buffer.putWords k.words k.taken

end Block

/-- Blocks are written from `c` on until no bits are left, or until one fails. -/
inductive WritesBlocks :
    Channel W → List (Word W) → Nat → List (Block W) → Option StreamError → Channel W → Prop
  | done (c : Channel W) (words : List (Word W)) : WritesBlocks c words 0 [] none c
  | failed {c c' : Channel W} {words : List (Word W)} {count : Nat} {e : StreamError}
      (h0 : count ≠ 0) (h : writeBlock words count c = .error (.error e) c') :
      WritesBlocks c words count [⟨c, words, count⟩] (some e) c'
  | block {c c₁ c' : Channel W} {words : List (Word W)} {count taken : Nat}
      {blocks : List (Block W)} {error? : Option StreamError} (h0 : count ≠ 0)
      (h : writeBlock words count c = .ok taken c₁)
      (next : WritesBlocks c₁ (words.drop (taken / W.bits)) (count - taken) blocks error? c') :
      WritesBlocks c words count (⟨c, words, count⟩ :: blocks) error? c'

/-! ## One block -/

/-- A flush leaves the partial word only, unless a write to the sink fails. -/
theorem ends_flush_position (c : Channel W) :
    Ends (flush c)
      (fun _ c' => c'.buffer.storage.size = c.buffer.storage.size ∧
        c'.buffer.position = c.buffer.offset)
      (fun e _ => ∃ text, e = .write text) False := by
  refine .get_bind (.bind ?_)
  rw [BitBuffer.flushWith]
  by_cases h0 : c.buffer.completeCount = 0
  · rw [if_pos h0]
    exact ⟨rfl, (Nat.mod_eq_of_lt ((Nat.div_eq_zero_iff_lt W.bits_pos).1 h0)).symm⟩
  · rw [if_neg h0]
    refine .bind (.bind ?_)
    rw [onSink]
    cases Sink.writeAll (Words.toBytes c.buffer.completeWords) c.sink with
    | error text s => exact ⟨text, rfl⟩
    | ok _ s =>
      refine .bind ?_
      rw [if_pos h0]
      exact ⟨c.buffer.size_storage_drain, c.buffer.position_drain⟩

theorem position_putWords_block {b : BitBuffer W} (hw : Words.Hold words count) :
    (b.putWords words (min count (room b))).position = b.position + min count (room b) :=
  BitBuffer.position_putWords _ _ _ (hw.mono (Nat.min_le_left ..))

/-- A block takes whole words if it leaves bits to write, and the words after them hold these. -/
theorem hold_drop_block {b : BitBuffer W} (hw : Words.Hold words count)
    (hlt : min count (room b) < count) :
    min count (room b) / W.bits * W.bits = min count (room b) ∧
      Words.Hold (words.drop (min count (room b) / W.bits)) (count - min count (room b)) := by
  have hdiv := room_div_mul b
  have hmin : min count (room b) = room b := by omega
  rw [hmin] at hlt ⊢
  refine ⟨hdiv, ?_⟩
  rw [← Words.hold_add_iff (hdiv.symm ▸ hw.mono (Nat.le_of_lt hlt)), hdiv,
    Nat.add_sub_cancel' (Nat.le_of_lt hlt)]
  exact hw

namespace Ready

theorem of_eq_zero {b : BitBuffer W} (hsize : 2 ≤ b.storage.size) (h : b.position = 0) :
    Ready b where
  two_le_size := hsize
  aligned := isAligned_of_eq_zero h
  position_le := h ▸ Nat.zero_le _

theorem hasRoom {b : BitBuffer W} (h : Ready b) : b.HasRoom := by
  have hsize := Nat.mul_le_mul_right W.bits h.two_le_size
  have hp := h.position_le
  rw [Nat.sub_mul, Nat.one_mul] at hp
  apply BitBuffer.hasRoom_iff.2
  omega

theorem position_add_room {b : BitBuffer W} (h : Ready b) :
    b.position + room b = (b.storage.size - 1) * W.bits := by
  have hroom := Channel.position_add_room h.aligned h.hasRoom
  rw [Nat.sub_mul, Nat.one_mul]
  omega

/-- Only its flush can keep a block from being written. -/
theorem writeBlock_eq (h : Ready c.buffer) (hw : Words.Hold words count) :
    writeBlock words count c =
      (do
        if (c.buffer.putWords words (min count (room c.buffer))).nearEnd then flush
        return min count (room c.buffer) : Action W Nat)
        { c with buffer := c.buffer.putWords words (min count (room c.buffer)) } := by
  have hroom := h.position_add_room
  have hlt : c.buffer.completeCount < c.buffer.storage.size := by
    have hfits := h.hasRoom
    rw [BitBuffer.HasRoom, if_pos h.aligned] at hfits
    exact hfits
  have hhold : Words.Hold words (min count (room c.buffer)) := hw.mono (Nat.min_le_left ..)
  have hfor : c.buffer.HasRoomFor (min count (room c.buffer)) := by
    have hceil : Bits.ceilDiv (min count (room c.buffer)) W.bits * W.bits ≤ room c.buffer :=
      Nat.mul_le_mul_right W.bits ((Bits.ceilDiv_le_iff W.bits_pos).2 (Nat.min_le_right ..))
    have hsize := Nat.mul_le_mul_right W.bits (Nat.sub_le c.buffer.storage.size 1)
    exact BitBuffer.hasRoomFor_iff.2 (.inr (by omega))
  refine (bind_of_ok rfl).trans ((bind_of_ok (inBounds_eq_ok hlt)).trans ?_)
  exact (bind_of_ok (inBounds_eq_ok ⟨hhold, hfor⟩)).trans rfl

/-- A block that leaves bits to write leaves an empty buffer. -/
theorem ends_writeBlock (h : Ready c.buffer) (hw : Words.Hold words count) :
    Ends (writeBlock words count c)
      (fun taken c₁ => taken = min count (room c.buffer) ∧
        c₁.buffer.storage.size = c.buffer.storage.size ∧
        (taken < count → c₁.buffer.position = 0))
      (fun e _ => ∃ text, e = .write text) False := by
  have hroom := h.position_add_room
  have hp := position_putWords_block (b := c.buffer) hw
  have hsize : (c.buffer.putWords words (min count (room c.buffer))).storage.size =
      c.buffer.storage.size := BitBuffer.size_storage_putWords ..
  have hnear := nearEnd_block h.aligned h.hasRoom (hw.mono (Nat.min_le_left ..))
  rw [h.writeBlock_eq hw]
  apply Ends.ite_bind
  split
  · refine (ends_flush_position _).mono ?_ (fun _ _ h => h) id
    rintro _ c₁ ⟨hsize₁, hp₁⟩
    refine ⟨rfl, hsize₁.trans hsize, fun hlt => ?_⟩
    -- the block ended at the start of the last word, so that there is no partial word
    have hend : (c.buffer.putWords words (min count (room c.buffer))).position =
        (c.buffer.storage.size - 1) * W.bits := by omega
    exact hp₁.trans (by rw [BitBuffer.offset, hend, Nat.mul_mod_left])
  · rename_i hn
    exact ⟨rfl, hsize, fun hlt => absurd (hnear.2 (by omega)) hn⟩

end Ready

/-- What is said of a block in the writing of `count` bits of `words` to a storage of `size`
words. -/
structure Block.Follows (words : List (Word W)) (count size : Nat) (k : Block W) : Prop where
  ready : Ready k.channel.buffer
  size_eq : k.channel.buffer.storage.size = size
  left_pos : 0 < k.left
  /-- The words that the block is taken from start where the bits start that are left. -/
  words_eq : ∃ n, n * W.bits + k.left = count ∧ k.words = words.drop n
  hold : Words.Hold k.words k.left
  writeBlock_eq : writeBlock k.words k.left k.channel =
    (do
      if k.written.nearEnd then flush
      return k.taken : Action W Nat) { k.channel with buffer := k.written }
  written_le : k.written.position ≤ (size - 1) * W.bits

namespace Block.Follows

variable {k : Block W}

theorem first (h : Ready c.buffer) (hw : Words.Hold words count) (h0 : count ≠ 0) :
    Block.Follows words count c.buffer.storage.size ⟨c, words, count⟩ where
  ready := h
  size_eq := rfl
  left_pos := Nat.pos_of_ne_zero h0
  words_eq := ⟨0, by simp, rfl⟩
  hold := hw
  writeBlock_eq := h.writeBlock_eq hw
  written_le := by
    have hroom := h.position_add_room
    have hp := position_putWords_block (b := c.buffer) hw
    dsimp only [Block.written, Block.taken]
    omega

/-- A block of the words after those taken is a block of all words. -/
theorem of_drop {taken : Nat}
    (h : k.Follows (words.drop (taken / W.bits)) (count - taken) size)
    (hdiv : taken / W.bits * W.bits = taken) (hle : taken ≤ count) :
    k.Follows words count size where
  ready := h.ready
  size_eq := h.size_eq
  left_pos := h.left_pos
  words_eq := by
    obtain ⟨n, hn, hwords⟩ := h.words_eq
    refine ⟨taken / W.bits + n, ?_, by rw [hwords, List.drop_drop]⟩
    rw [Nat.add_mul]
    omega
  hold := h.hold
  writeBlock_eq := h.writeBlock_eq
  written_le := h.written_le

/-- A block that finds an empty buffer takes a bit at least. -/
theorem taken_pos (h : k.Follows words count size) (h0 : k.channel.buffer.position = 0) :
    0 < k.taken := by
  have hsize := h.ready.two_le_size
  have hroom : 0 < room k.channel.buffer := by
    rw [room_eq h0]
    exact Nat.mul_pos (by omega) W.bits_pos
  exact Nat.lt_min.2 ⟨h.left_pos, hroom⟩

end Block.Follows

/-! ## All blocks -/

/-- The loop ends: each block but the first takes a bit at least. -/
theorem exists_writesBlocks {limit : Nat} (h : Ready c.buffer) (hw : Words.Hold words count)
    (hl : count + (if room c.buffer = 0 then 1 else 0) ≤ limit) :
    ∃ blocks error? c', WritesBlocks c words count blocks error? c' ∧ blocks.length ≤ limit := by
  induction limit generalizing c words count with
  | zero =>
    obtain rfl : count = 0 := by omega
    exact ⟨_, _, _, .done c words, Nat.le_refl _⟩
  | succ limit ih =>
    by_cases h0 : count = 0
    · subst h0
      exact ⟨_, _, _, .done c words, Nat.zero_le _⟩
    have hends := h.ends_writeBlock hw
    cases hblock : writeBlock words count c with
    | error failure c' =>
      rw [hblock] at hends
      cases failure with
      | violation _ => exact hends.elim
      | error e => exact ⟨_, _, _, .failed h0 hblock, Nat.succ_le_succ (Nat.zero_le _)⟩
    | ok taken c₁ =>
      rw [hblock] at hends
      obtain ⟨rfl, hsize, hzero⟩ := hends
      rcases Nat.lt_or_ge (min count (room c.buffer)) count with hlt | hge
      · have hready := Ready.of_eq_zero (hsize ▸ h.two_le_size) (hzero hlt)
        obtain ⟨-, hhold⟩ := hold_drop_block hw hlt
        have hroom : room c₁.buffer ≠ 0 := by
          have := Nat.mul_pos (Nat.sub_pos_of_lt hready.two_le_size) W.bits_pos
          rw [room_eq (hzero hlt)]
          omega
        -- the first block may be empty, and there is a step to spare for it
        have hlimit : count - min count (room c.buffer) +
            (if room c₁.buffer = 0 then 1 else 0) ≤ limit := by
          rw [if_neg hroom]
          split at hl <;> omega
        obtain ⟨blocks, error?, c', hblocks, hlen⟩ := ih hready hhold hlimit
        exact ⟨_, error?, c', .block h0 hblock hblocks, Nat.succ_le_succ hlen⟩
      · have hdone := WritesBlocks.done c₁ (words.drop (min count (room c.buffer) / W.bits))
        rw [← Nat.sub_eq_zero_of_le hge] at hdone
        exact ⟨_, _, _, .block h0 hblock hdone, Nat.succ_le_succ (Nat.zero_le _)⟩

namespace WritesBlocks

variable {k : Block W} {blocks : List (Block W)} {error? : Option StreamError}

/-- The loop does what as many blocks do as it takes. -/
theorem returns (h : WritesBlocks c words count blocks error? c') {limit : Nat}
    (hl : blocks.length ≤ limit) : Returns (writeBlocks limit words count) c error? c' := by
  induction h generalizing limit with
  | done c words => cases limit <;> exact ⟨(), rfl⟩
  | failed h0 h =>
    cases limit with
    | zero => simp at hl
    | succ limit =>
      rw [writeBlocks]
      · exact bind_of_error h
      · exact h0
  | @block c c₁ c' words count taken blocks error? h0 h next ih =>
    cases limit with
    | zero => simp at hl
    | succ limit =>
      have hrest := ih (Nat.le_of_succ_le_succ hl)
      rw [writeBlocks]
      swap
      · exact h0
      exact hrest.of_eq (bind_of_ok h)

theorem head_eq (h : WritesBlocks c words count (k :: blocks) error? c') :
    k = ⟨c, words, count⟩ := by
  cases h <;> rfl

theorem eq_nil_of_zero (h : WritesBlocks c words count blocks error? c') (h0 : count = 0) :
    blocks = [] ∧ error? = none := by
  cases h with
  | done => exact ⟨rfl, rfl⟩
  | failed hne => exact absurd h0 hne
  | block hne => exact absurd h0 hne

/-- Each block is one of the writing as a whole, and all but the first find an empty buffer. -/
theorem follows (h : WritesBlocks c words count blocks error? c') (hr : Ready c.buffer)
    (hw : Words.Hold words count) :
    (∀ k ∈ blocks, k.Follows words count c.buffer.storage.size) ∧
      (∀ k ∈ blocks.tail, k.channel.buffer.position = 0) ∧
      ∀ e, error? = some e → ∃ text, e = .write text := by
  induction h with
  | done => exact ⟨nofun, nofun, nofun⟩
  | failed h0 h =>
    have hends := hr.ends_writeBlock hw
    rw [h] at hends
    refine ⟨?_, nofun, ?_⟩
    · simpa using Block.Follows.first hr hw h0
    · rintro _ ⟨⟩
      exact hends
  | @block c c₁ c' words count taken blocks error? h0 h next ih =>
    have hends := hr.ends_writeBlock hw
    rw [h] at hends
    obtain ⟨rfl, hsize, hzero⟩ := hends
    rcases Nat.lt_or_ge (min count (room c.buffer)) count with hlt | hge
    · obtain ⟨hdiv, hhold⟩ := hold_drop_block hw hlt
      obtain ⟨hall, htail, herror⟩ :=
        ih (.of_eq_zero (hsize ▸ hr.two_le_size) (hzero hlt)) hhold
      rw [hsize] at hall
      refine ⟨List.forall_mem_cons.2 ⟨.first hr hw h0, fun k hk => ?_⟩, fun k hk => ?_, herror⟩
      · exact (hall k hk).of_drop hdiv (Nat.le_of_lt hlt)
      · cases blocks with
        | nil => cases hk
        | cons k' rest =>
          rcases List.mem_cons.1 hk with rfl | hk
          · rw [next.head_eq]
            exact hzero hlt
          · exact htail k hk
    · obtain ⟨rfl, rfl⟩ := next.eq_nil_of_zero (Nat.sub_eq_zero_of_le hge)
      refine ⟨?_, nofun, nofun⟩
      simpa using Block.Follows.first hr hw h0

/-- A block that leaves bits to write is followed by another one, unless it fails. -/
theorem exists_next (h : WritesBlocks c words count blocks error? c') (hr : Ready c.buffer)
    (hw : Words.Hold words count) (h0 : count ≠ 0) :
    ∃ rest, blocks = ⟨c, words, count⟩ :: rest ∧
      (min count (room c.buffer) < count → rest = [] → error? ≠ none) := by
  cases h with
  | done => exact absurd rfl h0
  | failed _ h => exact ⟨[], rfl, fun _ _ => nofun⟩
  | block _ h next =>
    refine ⟨_, rfl, ?_⟩
    rintro hlt rfl
    have hends := hr.ends_writeBlock hw
    rw [h] at hends
    obtain ⟨rfl, -⟩ := hends
    generalize hleft : count - min count (room c.buffer) = left at next
    cases next
    omega

end WritesBlocks

/-- Words that are written at a word boundary, with the cursor at the start of the last word at
most, are written in finitely many blocks, whatever the sink does, and only the sink can make the
write fail. A block takes no bits only if it is the first one and the cursor is at the start of the
last word; then another block follows, unless its flush fails. All blocks but the first find all
words but one free. Each takes the bits that are left or as many as there is room for, from the word
where those bits start, and ends at the start of the last word at most before its flush. -/
theorem writeWords_block_by_block (hsize : 2 ≤ c.buffer.storage.size)
    (ha : c.buffer.isAligned = true)
    (hp : c.buffer.position ≤ (c.buffer.storage.size - 1) * W.bits)
    (hw : Words.Hold words count) :
    ∃ blocks error? c', Returns (writeWords words count) c error? c' ∧
      WritesBlocks c words count blocks error? c' ∧
      (∀ e, error? = some e → ∃ text, e = .write text) ∧
      (∀ k ∈ blocks, k.Follows words count c.buffer.storage.size) ∧
      (∀ k ∈ blocks.tail, 0 < k.taken ∧
        room k.channel.buffer = (c.buffer.storage.size - 1) * W.bits) ∧
      (0 < count → ∃ rest, blocks = ⟨c, words, count⟩ :: rest ∧
        (Block.taken ⟨c, words, count⟩ = 0 ↔
          c.buffer.position = (c.buffer.storage.size - 1) * W.bits) ∧
        (Block.taken ⟨c, words, count⟩ = 0 → rest = [] → error? ≠ none)) := by
  have hr : Ready c.buffer := ⟨hsize, ha, hp⟩
  have hlimit : count + (if room c.buffer = 0 then 1 else 0) ≤ count + 1 := by split <;> omega
  obtain ⟨blocks, error?, c', hblocks, hlen⟩ := exists_writesBlocks hr hw hlimit
  obtain ⟨hall, htail, herror⟩ := hblocks.follows hr hw
  have hwrite : writeWords words count c = writeBlocks (count + 1) words count c := by
    refine (bind_of_ok rfl).trans ?_
    rw [if_pos ha]
  refine ⟨blocks, error?, c', (hblocks.returns hlen).of_eq hwrite, hblocks, herror, hall,
    fun k hk => ?_, fun hpos => ?_⟩
  · have hfollows := hall k (List.mem_of_mem_tail hk)
    refine ⟨hfollows.taken_pos (htail k hk), ?_⟩
    rw [room_eq (htail k hk), hfollows.size_eq]
  · obtain ⟨rest, hblocks, hnext⟩ := hblocks.exists_next hr hw (Nat.ne_of_gt hpos)
    have hroom := hr.position_add_room
    dsimp only [Block.taken]
    exact ⟨rest, hblocks, by omega, fun h0 => hnext (by omega)⟩

/-- A channel that was full up to the last word when the disk was full. -/
def afterFullDisk : Channel .w32 where
  buffer := { storage := #[0xdeadbeef, 0], position := 32 }
  sink := { acceptances := [], flushes := [],
            journal := #[.delivery [0xde, 0xad, 0xbe, 0xef] 0 1] }
  bytesWritten := 0
  events := #[]

/-- A write that a full disk failed leaves the cursor at the start of the last word. The next write
begins with an empty block, whose flush makes room. -/
theorem writeWords_after_full_disk :
    ∃ returned : List (Returned .w32), Run returned afterFullDisk ∧
      returned.map (·.error?) = [some (.write "disk full")] ∧ afterFullDisk.buffer.position = 32 ∧
      ∃ first rest c', (writeWords [1, 2] 40 : Action .w32 Unit) afterFullDisk = .ok () c' ∧
        WritesBlocks afterFullDisk [1, 2] 40 (first :: rest) none c' ∧ first.taken = 0 ∧
        rest ≠ [] ∧ ∀ k ∈ rest, 0 < k.taken ∧ room k.channel.buffer = 32 := by
  have hstart : Run (W := .w32) [] _ := .start [.failure "disk full"] [] 0
  have hfailed : Run _ afterFullDisk :=
    hstart.call (.write 0xdeadbeef 32) (some (.write "disk full")) (by decide) rfl
  obtain ⟨blocks, error?, c', hreturns, hblocks, -, -, hrest, hfirst⟩ :=
    writeWords_block_by_block (c := afterFullDisk) (by decide) (by decide) (by decide)
      (show Words.Hold [1, 2] 40 by decide)
  obtain ⟨_, hwrite⟩ : ∃ c', (writeWords [1, 2] 40 : Action .w32 Unit) afterFullDisk = .ok () c' :=
    ⟨_, rfl⟩
  have hok : Returns (writeWords [1, 2] 40) afterFullDisk none _ := ⟨(), hwrite⟩
  obtain ⟨rfl, rfl⟩ := hreturns.unique hok
  obtain ⟨rest, rfl, hempty, hnext⟩ := hfirst (by decide)
  have htaken := hempty.2 rfl
  exact ⟨_, hfailed, rfl, rfl, _, rest, c', hwrite, hblocks, htaken,
    fun h => hnext htaken h rfl, hrest⟩

end Channel
end BitTransducer
