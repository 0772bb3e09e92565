import BitTransducer.Proofs.Channel.Steps

/-! # Calls on a channel

The calls that a user of a channel can make, the bits that each of them writes, and one statement
about all of them: a call that succeeds commits its bits, and a call that fails commits what
`Call.CommitsOnError` allows. Bulk writes are the only ones that may commit a part.

Main statement: `Call.ends_run`. -/

namespace BitTransducer
namespace Channel

variable {W : Width} {c : Channel W}

/-- A call on a channel. -/
inductive Call (W : Width)
  | write (word : Word W) (count : Nat)
  | writeWords (words : List (Word W)) (count : Nat)
  | writeWordsDirect (words : List (Word W)) (count : Nat)
  | writeBuffer (source : BitBuffer W)
  | flush
  | pad
  | flushSink
  | finish

namespace Call

/-- The word of a single write ends where its count says, and sequences of words hold the bits asked
for. -/
def Valid : Call W → Prop
  | write word count => word.Fits count
  | writeWords words count => Words.Hold words count
  | writeWordsDirect words count => Words.Hold words count
  | writeBuffer source => source.position ≤ source.storage.size * W.bits
  | _ => True

instance : DecidablePred (Valid (W := W))
  | write .. => inferInstanceAs (Decidable (_ ∧ _))
  | writeWords .. => inferInstanceAs (Decidable (_ ≤ _))
  | writeWordsDirect .. => inferInstanceAs (Decidable (_ ≤ _))
  | writeBuffer _ => inferInstanceAs (Decidable (_ ≤ _))
  | flush => inferInstanceAs (Decidable True)
  | pad => inferInstanceAs (Decidable True)
  | flushSink => inferInstanceAs (Decidable True)
  | finish => inferInstanceAs (Decidable True)

/-- The word of a single write ends where its count says. No step can tell, so that its user has to
see to it, while sequences of words that are too short are found out. -/
def Fits : Call W → Prop
  | write word count => word.Fits count
  | _ => True

theorem Valid.fits {call : Call W} (h : call.Valid) : call.Fits := by
  cases call with
  | write => exact h
  | _ => exact trivial

/-- Makes the call. -/
def run : Call W → Action W Unit
  | write word count => Channel.write word count
  | writeWords words count => Channel.writeWords words count
  | writeWordsDirect words count => Channel.writeWordsDirect words count
  | writeBuffer source => Channel.writeBuffer source
  | flush => Channel.flush
  | pad => Channel.pad
  | flushSink => Channel.flushSink
  | finish => Channel.finish

/-- The bits that the call writes after `position` others. -/
def bits (position : Nat) : Call W → List Bool
  | write word count => word.toBits.take count
  | writeWords words count => (Words.toBits words).take count
  | writeWordsDirect words count => (Words.toBits words).take count
  | writeBuffer source => source.content
  | pad => padding W position
  | finish => padding W position
  | flush => []
  | flushSink => []

/-- What a direct write of `words` to the buffer `b` commits when it fails: nothing at a word
boundary, and elsewhere what it commits word by word. -/
def DirectCommitsOnError (words : List (Word W)) (count : Nat) (b b' : BitBuffer W)
    (bits : List Bool) (last : SinkEntry) : Prop :=
  if b.isAligned then bits = [] else IsFlushOf b' last ∧ WordPrefix words count bits

/-- What the call commits when it fails at the entry `last` and makes `b'` of the buffer `b`. All
but bulk writes commit their bits; bulk writes, if anything, those that they had put into the buffer
before the flush that failed. -/
def CommitsOnError (b b' : BitBuffer W) (bits : List Bool) (last : SinkEntry) : Call W → Prop
  | writeWords words count =>
    IsFlushOf b' last ∧
      if b.isAligned then BlockPrefix b words count bits else WordPrefix words count bits
  | writeWordsDirect words count => DirectCommitsOnError words count b b' bits last
  | writeBuffer source =>
    DirectCommitsOnError source.writtenWords source.position b b' bits last
  | flushSink => last = .flush false ∧ bits = []
  | finish => bits = padding W b.position
  | call => IsFlushOf b' last ∧ bits = call.bits b.position

/-- The bits depend on the place in the word only, where padding starts. -/
theorem bits_congr (call : Call W) {m n : Nat} (h : m % W.bits = n % W.bits) :
    call.bits m = call.bits n := by
  cases call with
  | pad | finish => rw [bits, bits, padding_eq, padding_eq, h]
  | _ => rfl

private theorem ends_writeDirect (hs : c.buffer.Sound) (words : List (Word W)) (count : Nat) :
    Ends (Channel.writeWordsDirect words count c)
      (fun _ c' => Words.Hold words count ∧ Advances c c' ((Words.toBits words).take count) ∧
        (c.buffer.nearEnd = false → c'.buffer.nearEnd = false))
      (fun _ c' => (∃ bits last, Fails c c' bits last ∧
        DirectCommitsOnError words count c.buffer c'.buffer bits last) ∧
        LeavesPrefix c c' ((Words.toBits words).take count))
      (¬ (c.buffer.HasRoom ∧ Words.Hold words count)) := by
  refine (ends_writeWordsDirect hs words count).mono (fun _ _ h => h) ?_
    (mt fun h => ⟨.inr h.1, h.2⟩)
  intro _ c' h
  obtain ⟨hleaves, h⟩ := h
  refine ⟨?_, hleaves⟩
  by_cases ha : c.buffer.isAligned = true
  · rw [if_pos ha] at h
    obtain ⟨last, hf⟩ := h
    refine ⟨[], last, hf, ?_⟩
    rw [DirectCommitsOnError, if_pos ha]
  · rw [if_neg ha] at h
    obtain ⟨bits, ⟨last, hl, hf⟩, hp⟩ := h
    refine ⟨bits, last, hf, ?_⟩
    rw [DirectCommitsOnError, if_neg ha]
    exact ⟨hl, hp⟩

/-- A call that succeeds was valid and commits its bits. One that fails commits what it may, and the
sink has then taken a first part of its bits at most. None finds no room as long as the cursor is
not near the end, where no call that succeeds leaves it. -/
theorem ends_run_of_fits (hs : c.buffer.Sound) (call : Call W) (hfits : call.Fits) :
    Ends (call.run c)
      (fun _ c' => call.Valid ∧ Advances c c' (call.bits c.buffer.position) ∧
        (c.buffer.nearEnd = false → c'.buffer.nearEnd = false) ∧ (call = .finish → c'.Finished))
      (fun _ c' => (∃ bits last, Fails c c' bits last ∧
        call.CommitsOnError c.buffer c'.buffer bits last) ∧
        LeavesPrefix c c' (call.bits c.buffer.position))
      (¬ (c.buffer.HasRoom ∧ call.Valid)) := by
  cases call with
  | write word count =>
    refine (ends_write hs hfits).mono ?_ ?_ (mt And.left)
    · intro _ _ h
      exact ⟨hfits, h.1, fun _ => h.2, nofun⟩
    · intro _ c' h
      obtain ⟨h, -⟩ := h
      refine ⟨?_, h.leavesPrefix (List.prefix_refl _)⟩
      obtain ⟨last, hl, hf⟩ := h
      exact ⟨_, last, hf, hl, rfl⟩
  | writeWords words count =>
    refine (ends_writeWords hs words count).mono ?_ ?_ id
    · intro _ _ h
      exact ⟨h.1, h.2.1, h.2.2, nofun⟩
    · intro _ c' h
      obtain ⟨bits, hf, hp⟩ := h
      refine ⟨?_, hf.leavesPrefix ?_⟩
      · obtain ⟨last, hl, hf⟩ := hf
        exact ⟨bits, last, hf, hl, hp⟩
      · split at hp
        · exact hp.isPrefix
        · exact hp.isPrefix
  | writeWordsDirect words count =>
    exact (ends_writeDirect hs words count).mono (fun _ _ h => ⟨h.1, h.2.1, h.2.2, nofun⟩)
      (fun _ _ h => h) id
  | writeBuffer source =>
    have hv : Words.Hold source.writtenWords source.position ↔ (writeBuffer source).Valid :=
      BitBuffer.hold_writtenWords_iff
    have h := ends_writeDirect hs source.writtenWords source.position
    rw [BitBuffer.take_toBits_writtenWords, hv] at h
    exact h.mono (fun _ _ h => ⟨h.1, h.2.1, h.2.2, nofun⟩) (fun _ _ h => h) id
  | flush =>
    refine (ends_flush hs).mono ?_ ?_ False.elim
    · intro _ c' h
      refine ⟨trivial, h.1, fun _ => h.1.sound.nearEnd_eq_false ?_, nofun⟩
      rw [h.2]
      exact c.buffer.offset_lt
    · intro _ c' h
      obtain ⟨-, h⟩ := h
      refine ⟨?_, h.leavesPrefix (List.prefix_refl _)⟩
      obtain ⟨last, hl, hf⟩ := h
      exact ⟨_, last, hf, hl, rfl⟩
  | pad =>
    refine (ends_pad hs).mono ?_ ?_ (mt fun h => .inr h.1)
    · intro _ _ h
      exact ⟨trivial, h.1, h.2, nofun⟩
    · intro _ c' h
      refine ⟨?_, h.leavesPrefix (List.prefix_refl _)⟩
      obtain ⟨last, hl, hf⟩ := h
      exact ⟨_, last, hf, hl, rfl⟩
  | flushSink =>
    refine (ends_flushSink hs).mono ?_ ?_ False.elim
    · intro _ c' h
      exact ⟨trivial, h.1, fun hn => h.2.buffer_eq ▸ hn, nofun⟩
    · intro _ c' h
      exact ⟨⟨_, _, h.1, rfl, rfl⟩, h.1.leavesPrefix_of_flush⟩
  | finish =>
    refine (ends_finish hs).mono ?_ ?_ (mt fun h => .inr h.1)
    · intro _ c' h
      obtain ⟨h, hfinished⟩ := h
      refine ⟨trivial, h, fun _ => h.sound.nearEnd_eq_false ?_, fun _ => hfinished⟩
      rw [hfinished.position_eq]
      exact W.bits_pos
    · intro _ c' h
      obtain ⟨hleaves, last, hf, -⟩ := h
      exact ⟨⟨_, last, hf, rfl⟩, hleaves⟩

/-- What a valid call does. -/
theorem ends_run (hs : c.buffer.Sound) (call : Call W) (hv : call.Valid) :
    Ends (call.run c)
      (fun _ c' => Advances c c' (call.bits c.buffer.position) ∧
        (c.buffer.nearEnd = false → c'.buffer.nearEnd = false) ∧
        (call = .finish → c'.buffer.position = 0))
      (fun _ c' => ∃ bits last, Fails c c' bits last ∧
        call.CommitsOnError c.buffer c'.buffer bits last)
      (¬ c.buffer.HasRoom) :=
  (ends_run_of_fits hs call hv.fits).mono
    (fun _ _ h => ⟨h.2.1, h.2.2.1, fun hcall => (h.2.2.2 hcall).position_eq⟩) (fun _ _ h => h.1)
    (mt fun hr => ⟨hr, hv⟩)

/-- At a sink that never fails, a valid call succeeds. -/
theorem exists_ok (hs : c.buffer.Sound) (hn : c.buffer.nearEnd = false) (hsink : c.sink.NeverFails)
    (call : Call W) (hv : call.Valid) :
    ∃ c', call.run c = .ok () c' ∧ Advances c c' (call.bits c.buffer.position) ∧
      c'.buffer.nearEnd = false ∧ (call = .finish → c'.Finished) := by
  obtain ⟨_, c', hc, -, hadvances, hnear, hfinish⟩ :=
    (ends_run_of_fits hs call hv.fits).exists_ok_of_not
      (by rintro _ c' ⟨⟨_, _, hfails, -⟩, -⟩
          exact hfails.1 hsink)
      (not_not_intro ⟨BitBuffer.hasRoom_of_nearEnd hn, hv⟩)
  exact ⟨c', hc, hadvances, hnear hn, hfinish⟩

end Call
end Channel
end BitTransducer
