import BitTransducer.Proofs.BitBuffer.Extensionality
import BitTransducer.Proofs.Channel.Stream

/-! # What a channel holds after a flush

Different ways of writing the same bits leave a channel in different states: words may have gone to
the sink already or still be buffered. A flush makes the states equal, since it leaves less than a
word in the buffer (`Settled`): the number of bits then says how many are buffered, and a sound
buffer of a given size is determined by its content (`BitBuffer.Sound.eq_of_content_eq`).

Main statements: `Advances.eq_of_settled`, `flushed_eq_of_written_eq`. -/

namespace BitTransducer

variable {W : Width}

namespace Channel

variable {c c₁ c₂ : Channel W} {bits : List Bool}

/-- No word is complete. -/
def Settled (c : Channel W) : Prop := c.buffer.position < W.bits

theorem Settled.offset_eq (h : c.Settled) : c.buffer.offset = c.buffer.position :=
  Nat.mod_eq_of_lt h

theorem Settled.flush_eq (h : c.Settled) : flush c = .ok () c := by
  have h0 : c.buffer.completeCount = 0 := Nat.div_eq_of_lt h
  have hf : (c.buffer.flushWith emit : Action W (Nat × BitBuffer W)) c = .ok (0, c.buffer) c := by
    rw [BitBuffer.flushWith, if_pos h0]
    rfl
  exact bind_of_ok hf

/-- Two ways of committing the same bits lead to the same state where no word is complete. -/
theorem Advances.eq_of_settled (h₁ : Advances c c₁ bits) (h₂ : Advances c c₂ bits)
    (hs : c.buffer.Sound) (hl₁ : c₁.Settled) (hl₂ : c₂.Settled) :
    c₁.buffer = c₂.buffer ∧ c₁.sink.received = c₂.sink.received ∧
      c₁.bytesWritten = c₂.bytesWritten := by
  obtain ⟨handed₁, hr₁, hw₁, hb₁⟩ := h₁.received_eq
  obtain ⟨handed₂, hr₂, hw₂, hb₂⟩ := h₂.received_eq
  have hp : c₁.buffer.position = c₂.buffer.position := by
    rw [← hl₁.offset_eq, ← hl₂.offset_eq, h₁.offset_eq hs, h₂.offset_eq hs]
  have hlen : c₁.buffer.content.length = c₂.buffer.content.length := by
    rw [h₁.sound.length_content, h₂.sound.length_content, hp]
  -- equally many bits are buffered, so that the same bits were handed over
  obtain ⟨hhanded, hcontent⟩ := List.append_inj' (hb₁.trans hb₂.symm) hlen
  have hbytes := Bits.ofBytes_inj hhanded
  refine ⟨h₁.sound.eq_of_content_eq h₂.sound (h₁.size_eq.trans h₂.size_eq.symm) hcontent, ?_, ?_⟩
  · rw [hr₁, hr₂, hbytes]
  · rw [hw₁, hw₂, hbytes]

namespace Call

/-- The call writes bits that are given to it, or flushes. -/
def Writes : Call W → Prop
  | pad => False
  | finish => False
  | flushSink => False
  | _ => True

instance : DecidablePred (Writes (W := W))
  | pad => inferInstanceAs (Decidable False)
  | finish => inferInstanceAs (Decidable False)
  | flushSink => inferInstanceAs (Decidable False)
  | write .. => inferInstanceAs (Decidable True)
  | writeWords .. => inferInstanceAs (Decidable True)
  | writeWordsDirect .. => inferInstanceAs (Decidable True)
  | writeBuffer _ => inferInstanceAs (Decidable True)
  | flush => inferInstanceAs (Decidable True)

theorem Writes.ne_pad {call : Call W} (h : call.Writes) : call ≠ .pad ∧ call ≠ .finish := by
  constructor <;> rintro rfl <;> exact h

/-- Makes the call and gives its operands back, buffers among them, as they are then. -/
def runKeeping (call : Call W) : Action W (Call W) := do
  call.run
  return call

end Call

/-- Makes the calls and flushes; the calls with their operands as they are then. -/
def flushedAfter (calls : List (Call W)) : Action W (List (Call W)) := do
  let calls ← calls.mapM Call.runKeeping
  flush
  return calls

/-- Calls that return leave their operands alone. -/
theorem mapM_runKeeping_eq {calls : List (Call W)} {c c' : Channel W}
    (h : (forM calls Call.run : Action W Unit) c = .ok () c') :
    (calls.mapM Call.runKeeping : Action W _) c = .ok calls c' := by
  induction calls generalizing c with
  | nil =>
    cases h
    rfl
  | cons call calls ih =>
    rw [List.forM_cons] at h
    obtain ⟨_, c₁, hcall, hcalls⟩ := exists_of_bind_ok h
    have hkeep : call.runKeeping c = .ok call c₁ := bind_of_ok hcall
    rw [List.mapM_cons, bind_of_ok hkeep, bind_of_ok (ih hcalls)]
    rfl

/-- Calls on a channel that was only called before at a sink that never fails: with a flush after
them, they commit their bits to those written before and leave no complete word. -/
theorem exists_flushedAfter {sink : Sink} (hs : sink.NeverFails) (capacity : Nat)
    {earlier calls : List (Call W)} (he : ∀ call ∈ earlier, call.Valid)
    (hv : ∀ call ∈ calls, call.Valid ∧ call.Writes)
    (hc : (forM earlier Call.run : Action W Unit) (ofSink sink capacity) = .ok () c) :
    ∃ c', flushedAfter calls c = .ok calls c' ∧
      Advances (ofSink sink capacity) c' (written earlier ++ written calls) ∧ c'.Settled := by
  have hplain : ∀ call ∈ calls, call ≠ .pad ∧ call ≠ .finish := fun call hmem =>
    (hv call hmem).2.ne_pad
  have hvalid : ∀ call ∈ earlier ++ calls, call.Valid := by
    intro call hmem
    rcases List.mem_append.1 hmem with hmem | hmem
    · exact he call hmem
    · exact (hv call hmem).1
  obtain ⟨_, c₁, hrun, h₁, -⟩ := (ends_forM_run hs capacity hvalid).exists_ok
  rw [List.forM_append, bind_of_ok hc] at hrun
  rw [written_append_eq earlier hplain, ← written_eq_flatMap hplain] at h₁
  obtain ⟨_, c', hflush, h', hp⟩ := ((ends_flush h₁.sound).mono (fun _ _ h => h)
    (fun _ _ h => h.2.elim fun _ hf => hf.2.1 (h₁.neverFails hs)) id).exists_ok
  refine ⟨c', ?_, h₁.trans_nil h', hp.trans_lt c₁.buffer.offset_lt⟩
  rw [flushedAfter, bind_of_ok (mapM_runKeeping_eq hrun), bind_of_ok hflush]
  rfl

/-- However the same bits are cut into calls, and whichever calls carry them from wherever a channel
stands, a flush leaves the same buffer, the same bytes at the sink and the same count of them. The
buffers that were written are as before, and another flush changes nothing. -/
theorem flushed_eq_of_written_eq {acceptances : List Acceptance} {flushes : List (Option String)}
    (hs : (Sink.scheduled acceptances flushes).NeverFails) (capacity : Nat)
    {earlier : List (Call W)} (he : ∀ call ∈ earlier, call.Valid)
    (hc : (forM earlier Call.run : Action W Unit)
      (ofSink (.scheduled acceptances flushes) capacity) = .ok () c)
    {calls₁ calls₂ : List (Call W)} (hv₁ : ∀ call ∈ calls₁, call.Valid ∧ call.Writes)
    (hv₂ : ∀ call ∈ calls₂, call.Valid ∧ call.Writes) (hw : written calls₁ = written calls₂) :
    ∃ c₁ c₂ : Channel W,
      flushedAfter calls₁ c = .ok calls₁ c₁ ∧ flushedAfter calls₂ c = .ok calls₂ c₂ ∧
      c₁.buffer = c₂.buffer ∧ c₁.sink.received = c₂.sink.received ∧
      c₁.bytesWritten = c₂.bytesWritten ∧ flush c₁ = .ok () c₁ ∧ flush c₂ = .ok () c₂ := by
  obtain ⟨c₁, hrun₁, h₁, hl₁⟩ := exists_flushedAfter hs capacity he hv₁ hc
  obtain ⟨c₂, hrun₂, h₂, hl₂⟩ := exists_flushedAfter hs capacity he hv₂ hc
  rw [← hw] at h₂
  obtain ⟨hbuffer, hreceived, hwritten⟩ := h₁.eq_of_settled h₂ (sound_ofSink ..) hl₁ hl₂
  exact ⟨c₁, c₂, hrun₁, hrun₂, hbuffer, hreceived, hwritten, hl₁.flush_eq, hl₂.flush_eq⟩

/-- Sixty-seven bits after a word: directly to the sink, or one bit first and the others shifted
into place after it. -/
theorem flushed_eq_of_cut_words :
    ∃ c c₁ c₂ : Channel .w32,
      (forM [.write 0x01234567 32] Call.run : Action .w32 Unit)
        (ofSink (.scheduled [.take 1, .interrupted] []) 0) = .ok () c ∧
      flushedAfter [.writeWordsDirect [0xdeadbeef, 0x12345678, 0xffffffff] 67] c =
        .ok [.writeWordsDirect [0xdeadbeef, 0x12345678, 0xffffffff] 67] c₁ ∧
      flushedAfter [.write 0x80000000 1, .writeWords [0xbd5b7dde, 0x2468acf1, 0xc0000000] 66] c =
        .ok [.write 0x80000000 1, .writeWords [0xbd5b7dde, 0x2468acf1, 0xc0000000] 66] c₂ ∧
      c₁.buffer = c₂.buffer ∧ c₁.sink.received = c₂.sink.received ∧
      c₁.bytesWritten = c₂.bytesWritten ∧ flush c₁ = .ok () c₁ ∧ flush c₂ = .ok () c₂ := by
  have hc : (forM [.write 0x01234567 32] Call.run : Action .w32 Unit)
      (ofSink (.scheduled [.take 1, .interrupted] []) 0) = .ok () _ := rfl
  obtain ⟨c₁, c₂, h⟩ := flushed_eq_of_written_eq
    (show (Sink.scheduled [.take 1, .interrupted] []).NeverFails by decide) 0
    (show ∀ call ∈ [.write 0x01234567 32], Call.Valid call by decide) hc
    (show ∀ call ∈ [.writeWordsDirect [0xdeadbeef, 0x12345678, 0xffffffff] 67],
      Call.Valid call ∧ call.Writes by decide)
    (show ∀ call ∈ [.write 0x80000000 1, .writeWords [0xbd5b7dde, 0x2468acf1, 0xc0000000] 66],
      Call.Valid call ∧ call.Writes by decide)
    (by decide)
  exact ⟨_, c₁, c₂, hc, h⟩

end Channel
end BitTransducer
