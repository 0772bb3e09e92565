import BitTransducer.Proofs.BitReader.Reading
import BitTransducer.Proofs.Channel.Stream

/-! # Writing bits and reading them back

A bit stream is written piece by piece, a few bits of a word at a time, to a channel that packs
words, and read back piece by piece from the bytes of the sink. Reader and channel meet in the bit
string that the bytes spell: the channel leaves the bits of the pieces there, filled up with zeros
to whole words, and the reader takes them off its front.

Main statement: `decode_encoded`. -/

namespace BitTransducer

variable {W : Width}

/-- The first `count` bits of a word. -/
structure Piece (W : Width) where
  word : Word W
  count : Nat
deriving DecidableEq

namespace Piece

/-- There is a bit at least, and zeros only after the bits of the piece. -/
def Valid (piece : Piece W) : Prop := 1 ≤ piece.count ∧ piece.word.Fits piece.count

instance (piece : Piece W) : Decidable piece.Valid := inferInstanceAs (Decidable (_ ∧ _))

def bits (piece : Piece W) : List Bool := piece.word.toBits.take piece.count

theorem Valid.length_bits {piece : Piece W} (h : piece.Valid) :
    piece.bits.length = piece.count := by
  rw [bits, List.length_take, Word.length_toBits, Nat.min_eq_left h.2.1]

end Piece

/-! ## Writing pieces -/

namespace Channel.Call

/-- The call writes a piece or flushes. -/
def Packs : Call W → Prop
  | write word count => Piece.Valid ⟨word, count⟩
  | flush => True
  | _ => False

instance : DecidablePred (Packs (W := W))
  | write .. => inferInstanceAs (Decidable (Piece.Valid _))
  | flush => inferInstanceAs (Decidable True)
  | writeWords .. => inferInstanceAs (Decidable False)
  | writeWordsDirect .. => inferInstanceAs (Decidable False)
  | writeBuffer _ => inferInstanceAs (Decidable False)
  | pad => inferInstanceAs (Decidable False)
  | flushSink => inferInstanceAs (Decidable False)
  | finish => inferInstanceAs (Decidable False)

def piece? : Call W → Option (Piece W)
  | write word count => some ⟨word, count⟩
  | _ => none

theorem Packs.valid {call : Call W} (h : call.Packs) : call.Valid := by
  cases call with
  | write word count => exact h.2
  | flush => trivial
  | _ => exact h.elim

theorem Packs.ne_pad {call : Call W} (h : call.Packs) : call ≠ .pad ∧ call ≠ .finish := by
  constructor <;> rintro rfl <;> exact h

end Channel.Call

def pieces (calls : List (Channel.Call W)) : List (Piece W) := calls.filterMap (·.piece?)

theorem valid_of_mem_pieces {calls : List (Channel.Call W)} (h : ∀ call ∈ calls, call.Packs)
    {piece : Piece W} (hp : piece ∈ pieces calls) : piece.Valid := by
  obtain ⟨call, hmem, hpiece⟩ := List.mem_filterMap.1 hp
  have hpacks := h call hmem
  cases call with
  | write word count =>
    cases hpiece
    exact hpacks
  | _ => cases hpiece

theorem written_eq_bits_pieces {calls : List (Channel.Call W)} (h : ∀ call ∈ calls, call.Packs) :
    Channel.written calls = (pieces calls).flatMap Piece.bits := by
  rw [Channel.written_eq_flatMap fun call hmem => (h call hmem).ne_pad]
  induction calls with
  | nil => rfl
  | cons call calls ih =>
    obtain ⟨hcall, hcalls⟩ := List.forall_mem_cons.1 h
    rw [List.flatMap_cons, ih hcalls]
    cases call with
    | write word count => rfl
    | flush => rfl
    | _ => exact hcall.elim

/-! ## Reading pieces -/

/-- How bits are read: as a word with them at its top, or as a number. -/
inductive Manner
  | word
  | number

namespace Manner

def read (manner : Manner) (count : Nat) : BitReader.Action (Word W ⊕ Nat) :=
  match manner with
  | word => Sum.inl <$> BitReader.readWord W count
  | number => Sum.inr <$> BitReader.readBits count

/-- What a read of a piece is to return: the word, or its bits right-justified. -/
def answer (manner : Manner) (piece : Piece W) : Word W ⊕ Nat :=
  match manner with
  | word => .inl piece.word
  | number => .inr (piece.word >>> (W.bits - piece.count)).toNat

end Manner

/-- Reads as many bits as each request says, in turn and in the manner that it says. -/
def readInTurn : List (Manner × Nat) → BitReader.Action (List (Word W ⊕ Nat))
  | [] => return []
  | (manner, count) :: requests => do
    let answer ← manner.read count
    let answers ← readInTurn requests
    return answer :: answers

/-- A piece that comes next is read back in either manner. -/
theorem Manner.read_eq (manner : Manner) {piece : Piece W} (hv : piece.Valid) {r : BitReader}
    (h : r.Within) {rest : List Bool} (hu : r.unread = piece.bits ++ rest) :
    manner.read piece.count r =
      .ok (manner.answer piece) { r with position := r.position + piece.count } := by
  have hlen := hv.length_bits
  obtain ⟨hpos, hfits⟩ := hv
  have h0 : piece.count ≠ 0 := Nat.ne_of_gt hpos
  have h64 : piece.count ≤ 64 := Nat.le_trans hfits.1 (by cases W <;> decide)
  have hc : piece.count ≤ r.remaining := by
    rw [← h.length_unread, hu, List.length_append, hlen]
    exact Nat.le_add_right ..
  have htake : r.unread.take piece.count = piece.word.toBits.take piece.count := by
    rw [hu, List.take_left' hlen, Piece.bits]
  cases manner with
  | word =>
    have hr := BitReader.readWord_eq h h0 hfits.1 hc
    rw [htake, hfits.leftAlign_value] at hr
    exact map_of_ok hr
  | number =>
    have hr := BitReader.readBits_eq h h0 h64 hc
    rw [htake, piece.word.value_take_toBits hfits.1] at hr
    exact map_of_ok hr

theorem readInTurn_eq {pieces : List (Piece W)} (hv : ∀ piece ∈ pieces, piece.Valid)
    {manners : List Manner} (hm : manners.length = pieces.length) {r : BitReader} (h : r.Within)
    {rest : List Bool} (hu : r.unread = pieces.flatMap Piece.bits ++ rest) :
    ∃ r', readInTurn (manners.zip (pieces.map (·.count))) r =
        .ok (List.zipWith Manner.answer manners pieces) r' ∧
      r' = { r with position := r.position + (pieces.flatMap Piece.bits).length } ∧
      r'.Within ∧ r'.unread = rest := by
  induction pieces generalizing manners r with
  | nil =>
    obtain rfl := List.eq_nil_of_length_eq_zero hm
    exact ⟨r, rfl, rfl, h, hu⟩
  | cons piece pieces ih =>
    obtain ⟨hpiece, hpieces⟩ := List.forall_mem_cons.1 hv
    cases manners with
    | nil => cases hm
    | cons manner manners =>
      have hlen := hpiece.length_bits
      rw [List.flatMap_cons, List.append_assoc] at hu
      have hread := manner.read_eq hpiece h hu
      have hc : piece.count ≤ r.remaining := by
        rw [← h.length_unread, hu, List.length_append, hlen]
        exact Nat.le_add_right ..
      have hu₁ : BitReader.unread { r with position := r.position + piece.count } =
          pieces.flatMap Piece.bits ++ rest := by
        rw [BitReader.unread_advance, hu, List.drop_left' hlen]
      obtain ⟨r', hr, hpos, hw, hrest⟩ := ih hpieces (Nat.succ.inj hm) (h.advance hc) hu₁
      refine ⟨r', ?_, ?_, hw, hrest⟩
      · rw [List.map_cons, List.zip_cons_cons, readInTurn, bind_of_ok hread, bind_of_ok hr]
        rfl
      · rw [hpos, List.flatMap_cons, List.length_append, hlen, Nat.add_assoc]

/-- Pieces written to a channel, with flushes anywhere between them, are read back from the bytes of
the sink when the channel is finished. What is left then are the zeros that filled up the last
word, and aligning passes over them to the end. -/
theorem decode_encoded {acceptances : List Acceptance} {flushes : List (Option String)}
    (hs : (Sink.scheduled acceptances flushes).NeverFails) (capacity : Nat)
    {calls : List (Channel.Call W)} (hv : ∀ call ∈ calls, call.Packs) :
    ∃ c : Channel W,
      (forM (calls ++ [.finish]) Channel.Call.run : Channel.Action W Unit)
        (.ofSink (.scheduled acceptances flushes) capacity) = .ok () c ∧
      ∀ manners : List Manner, manners.length = (pieces calls).length →
        ∃ r r' : BitReader,
          readInTurn (manners.zip ((pieces calls).map (·.count)))
            (BitReader.ofBytes c.sink.received.toArray) =
              .ok (List.zipWith Manner.answer manners (pieces calls)) r ∧
          r.remaining < W.bits ∧ r.unread = List.replicate r.remaining false ∧
          BitReader.alignWord W r = .ok () r' ∧ r'.position = 8 * c.sink.received.length := by
  have hvalid : ∀ call ∈ calls, call.Valid := fun call hmem => (hv call hmem).valid
  obtain ⟨c, hc, hbits⟩ := Channel.exists_finished hs rfl capacity hvalid
  rw [written_eq_bits_pieces hv] at hbits
  refine ⟨c, hc, fun manners hm => ?_⟩
  have hlength := congrArg List.length hbits
  rw [Bits.length_ofBytes, Bits.length_padTo _ _ W.bits_pos] at hlength
  have hu : (BitReader.ofBytes c.sink.received.toArray).unread =
      (pieces calls).flatMap Piece.bits ++ _ := (BitReader.unread_ofBytes _).trans hbits
  obtain ⟨r, hr, hpos, hw, hrest⟩ :=
    readInTurn_eq (fun _ => valid_of_mem_pieces hv) hm (BitReader.within_ofBytes _) hu
  have hremaining := hw.length_unread
  rw [hrest, List.length_replicate] at hremaining
  refine ⟨r, _, hr, ?_, ?_, BitReader.alignWord_eq hw.position_le, ?_⟩
  · have hW := W.bits_pos
    have := Bits.ceilDiv_mul_lt ((pieces calls).flatMap Piece.bits).length hW
    omega
  · rw [hrest, hremaining]
  · rw [hpos]
    dsimp only [BitReader.ofBytes]
    rw [Nat.zero_add, ← hlength, List.size_toArray, Nat.min_self]

/-- A piece that spills into a second word and a short one, flushed in between, are read back as a
number and as a word, after which twenty-nine zeros are left. -/
theorem decode_spilled_piece :
    ∃ (c : Channel .w32) (r r' : BitReader),
      (forM ([.write 0xa0000000 3, .flush, .write 0xdeadbeef 32] ++ [.finish]) Channel.Call.run :
        Channel.Action .w32 Unit) (.ofSink (.scheduled [.take 1, .interrupted] []) 0) = .ok () c ∧
      readInTurn [(.word, 3), (.number, 32)] (BitReader.ofBytes c.sink.received.toArray) =
        .ok [.inl (0xa0000000 : Word .w32), .inr 0xdeadbeef] r ∧
      r.remaining < 32 ∧ r.unread = List.replicate r.remaining false ∧
      BitReader.alignWord .w32 r = .ok () r' ∧ r'.position = 8 * c.sink.received.length := by
  obtain ⟨c, hc, hread⟩ := decode_encoded (W := .w32)
    (show (Sink.scheduled [.take 1, .interrupted] []).NeverFails by decide) 0
    (show ∀ call ∈ [.write 0xa0000000 3, .flush, .write 0xdeadbeef 32], Channel.Call.Packs call by
      decide)
  obtain ⟨r, r', hr⟩ := hread [.word, .number] rfl
  exact ⟨c, r, r', hc, hr⟩

end BitTransducer
