import BitTransducer.Channel
import BitTransducer.Proofs.BitBuffer.Content
import BitTransducer.Proofs.Sink.Delivery

/-! # What a channel commits

A channel keeps its books by one equation: the bits that were handed over, followed by the buffered
bits, are the bits that were buffered before, followed by the bits that were committed. `Progress`
states it between two states of a channel, together with what happened at the sink. Steps that
succeed make progress on which nothing failed at the sink (`Advances`), steps that fail make
progress whose last entry at the sink is the failure (`Fails`), and both compose. -/

namespace BitTransducer
namespace Channel

variable {W : Width} {c c₁ c₂ : Channel W} {bits bits' : List Bool}
  {entries entries' : List SinkEntry} {last : SinkEntry}

/-- From `c` to `c'` the `bits` were committed and the `entries` happened at the sink. -/
structure Progress (c c' : Channel W) (bits : List Bool) (entries : List SinkEntry) : Prop where
  sound : c'.buffer.Sound
  size_eq : c'.buffer.storage.size = c.buffer.storage.size
  sink : c.sink.Extends c'.sink entries
  bytesWritten_eq : c'.bytesWritten =
    c.bytesWritten + (entries.flatMap SinkEntry.handedOver).length
  whole_words : W.bytes ∣ (entries.flatMap SinkEntry.handedOver).length
  bits_eq : Bits.ofBytes (entries.flatMap SinkEntry.handedOver) ++ c'.buffer.content =
    c.buffer.content ++ bits

namespace Progress

theorem trans (h : Progress c c₁ bits entries) (h' : Progress c₁ c₂ bits' entries') :
    Progress c c₂ (bits ++ bits') (entries ++ entries') where
  sound := h'.sound
  size_eq := h'.size_eq.trans h.size_eq
  sink := h.sink.trans h'.sink
  bytesWritten_eq := by
    rw [h'.bytesWritten_eq, h.bytesWritten_eq, List.flatMap_append, List.length_append,
      Nat.add_assoc]
  whole_words := by
    rw [List.flatMap_append, List.length_append]
    exact Nat.dvd_add h.whole_words h'.whole_words
  bits_eq := by
    rw [List.flatMap_append, Bits.ofBytes_append, List.append_assoc, h'.bits_eq,
      ← List.append_assoc, h.bits_eq, List.append_assoc]

/-- A bit is either handed over or still before the cursor. -/
theorem position_eq (h : Progress c c₁ bits entries) (hs : c.buffer.Sound) :
    8 * (entries.flatMap SinkEntry.handedOver).length + c₁.buffer.position =
      c.buffer.position + bits.length := by
  have hl := congrArg List.length h.bits_eq
  rwa [List.length_append, List.length_append, Bits.length_ofBytes, h.sound.length_content,
    hs.length_content] at hl

/-- The cursor's place in its word depends on the number of bits only: whole words are handed
over. -/
theorem offset_eq (h : Progress c c₁ bits entries) (hs : c.buffer.Sound) :
    c₁.buffer.offset = (c.buffer.position + bits.length) % W.bits := by
  obtain ⟨n, hn⟩ := h.whole_words
  rw [← h.position_eq hs, hn, ← Nat.mul_assoc, ← W.bits_eq, BitBuffer.offset, Nat.mul_add_mod]

end Progress

/-- Progress on which nothing failed at the sink. -/
def Advances (c c' : Channel W) (bits : List Bool) : Prop :=
  ∃ entries, (∀ e ∈ entries, e.Done) ∧ Progress c c' bits entries

/-- Progress that ended with a failure at the sink, the entry `last`. -/
def Fails (c c' : Channel W) (bits : List Bool) (last : SinkEntry) : Prop :=
  ¬ c.sink.NeverFails ∧ last.Failed ∧
    ∃ done, (∀ e ∈ done, e.Done) ∧ Progress c c' bits (done ++ [last])

namespace Advances

theorem sound (h : Advances c c₁ bits) : c₁.buffer.Sound := h.elim fun _ h => h.2.sound

theorem size_eq (h : Advances c c₁ bits) : c₁.buffer.storage.size = c.buffer.storage.size :=
  h.elim fun _ h => h.2.size_eq

theorem offset_eq (h : Advances c c₁ bits) (hs : c.buffer.Sound) :
    c₁.buffer.offset = (c.buffer.position + bits.length) % W.bits :=
  h.elim fun _ h => h.2.offset_eq hs

theorem neverFails (h : Advances c c₁ bits) (hs : c.sink.NeverFails) : c₁.sink.NeverFails :=
  h.elim fun _ h => h.2.sink.neverFails hs

/-- The sink received what was handed over, and nothing else. -/
theorem received_eq (h : Advances c c₁ bits) :
    ∃ handedOver : List UInt8, c₁.sink.received = c.sink.received ++ handedOver ∧
      c₁.bytesWritten = c.bytesWritten + handedOver.length ∧
      Bits.ofBytes handedOver ++ c₁.buffer.content = c.buffer.content ++ bits := by
  obtain ⟨entries, hd, hp⟩ := h
  refine ⟨_, ?_, hp.bytesWritten_eq, hp.bits_eq⟩
  rw [hp.sink.received_eq, List.flatMap_congr fun e he => (hd e he).received_eq]

theorem stream_eq (h : Advances c c₁ bits) : c₁.stream = c.stream ++ bits := by
  obtain ⟨handedOver, hr, -, hb⟩ := h.received_eq
  rw [stream, hr, Bits.ofBytes_append, List.append_assoc, hb, ← List.append_assoc, stream]

theorem refl (hs : c.buffer.Sound) : Advances c c [] :=
  ⟨[], nofun, hs, rfl, .refl _, rfl, Nat.dvd_zero _, (List.append_nil _).symm⟩

theorem trans (h : Advances c c₁ bits) (h' : Advances c₁ c₂ bits') :
    Advances c c₂ (bits ++ bits') := by
  obtain ⟨entries, hd, hp⟩ := h
  obtain ⟨entries', hd', hp'⟩ := h'
  exact ⟨_, fun e he => (List.mem_append.1 he).elim (hd e) (hd' e), hp.trans hp'⟩

theorem trans_nil (h : Advances c c₁ bits) (h' : Advances c₁ c₂ []) : Advances c c₂ bits :=
  List.append_nil bits ▸ h.trans h'

theorem fails (h : Advances c c₁ bits) (h' : Fails c₁ c₂ bits' last) :
    Fails c c₂ (bits ++ bits') last := by
  obtain ⟨hn, hl, done, hd', hp'⟩ := h'
  refine ⟨fun hs => hn (h.neverFails hs), hl, ?_⟩
  obtain ⟨entries, hd, hp⟩ := h
  refine ⟨entries ++ done, fun e he => (List.mem_append.1 he).elim (hd e) (hd' e), ?_⟩
  rw [List.append_assoc]
  exact hp.trans hp'

theorem fails_nil (h : Advances c c₁ bits) (h' : Fails c₁ c₂ [] last) : Fails c c₂ bits last :=
  List.append_nil bits ▸ h.fails h'

/-- A step on the buffer alone. -/
theorem of_buffer {b : BitBuffer W} (hs : b.Sound)
    (hsize : b.storage.size = c.buffer.storage.size) (hb : b.content = c.buffer.content ++ bits) :
    Advances c { c with buffer := b } bits :=
  ⟨[], nofun, hs, hsize, .refl _, rfl, Nat.dvd_zero _, hb⟩

/-- Words that went to the sink are committed if the buffer gave them up. -/
theorem of_delivery {words : List (Word W)} {requests : Nat} (hs : c₁.buffer.Sound)
    (hsize : c₁.buffer.storage.size = c.buffer.storage.size)
    (hwritten : c₁.bytesWritten = c.bytesWritten + words.length * W.bytes)
    (hsink : c.sink.Extends c₁.sink
      [.delivery (Words.toBytes words) (Words.toBytes words).length requests])
    (hb : Words.toBits words ++ c₁.buffer.content = c.buffer.content ++ bits) :
    Advances c c₁ bits := by
  refine ⟨_, ?_, hs, hsize, hsink, ?_, ?_, ?_⟩
  · intro e he
    cases List.mem_singleton.1 he
    exact rfl
  all_goals rw [List.flatMap_singleton, SinkEntry.handedOver, if_pos rfl]
  · rw [hwritten, Words.length_toBytes]
  · exact ⟨words.length, by rw [Words.length_toBytes, Nat.mul_comm]⟩
  · rw [Words.ofBytes_toBytes, hb]

theorem of_flush {s : Sink} (hs : c.buffer.Sound) (hsink : c.sink.Extends s [.flush true]) :
    Advances c { c with sink := s } [] := by
  refine ⟨_, fun e he => ?_, hs, rfl, hsink, rfl, Nat.dvd_zero _, (List.append_nil _).symm⟩
  cases List.mem_singleton.1 he
  exact rfl

/-- Events are not part of the books. -/
theorem withEvents (h : Advances c c₁ bits) (events : Array Event) :
    Advances c { c₁ with events } bits := by
  obtain ⟨entries, hd, hp⟩ := h
  exact ⟨entries, hd, hp.sound, hp.size_eq, hp.sink, hp.bytesWritten_eq, hp.whole_words, hp.bits_eq⟩

end Advances

theorem Fails.sound (h : Fails c c₁ bits last) : c₁.buffer.Sound :=
  h.2.2.elim fun _ h => h.2.sound

/-- What the sink of `c'` took is a first part of what was written to `c` and of the `bits`. -/
def LeavesPrefix (c c' : Channel W) (bits : List Bool) : Prop :=
  Bits.ofBytes c'.sink.received <+: c.stream ++ bits

namespace LeavesPrefix

theorem mono (h : LeavesPrefix c c₁ bits) (hbits : bits <+: bits') : LeavesPrefix c c₁ bits' :=
  h.trans ((List.prefix_append_right_inj _).2 hbits)

theorem of_advances (h : Advances c c₁ bits) (h' : LeavesPrefix c₁ c₂ bits') :
    LeavesPrefix c c₂ (bits ++ bits') := by
  rw [LeavesPrefix, h.stream_eq, List.append_assoc] at h'
  exact h'

end LeavesPrefix

theorem Advances.leavesPrefix (h : Advances c c₁ bits) : LeavesPrefix c c₁ bits := by
  rw [LeavesPrefix, ← h.stream_eq]
  exact List.prefix_append ..

/-- The part of the last delivery that the sink took is a first part of the bits that are left, if
those are the ones that were offered. -/
theorem Fails.leavesPrefix (h : Fails c c₁ bits last)
    (hlast : Bits.ofBytes last.received <+: c₁.buffer.content ++ bits') :
    LeavesPrefix c c₁ (bits ++ bits') := by
  obtain ⟨-, hfailed, done, hdone, hp⟩ := h
  have hreceived : c₁.sink.received =
      c.sink.received ++ (done.flatMap SinkEntry.handedOver ++ last.received) := by
    rw [hp.sink.received_eq, List.flatMap_append, List.flatMap_singleton,
      List.flatMap_congr fun e he => (hdone e he).received_eq]
  have hbits := hp.bits_eq
  rw [List.flatMap_append, List.flatMap_singleton, hfailed.handedOver_eq, List.append_nil] at hbits
  rw [LeavesPrefix, hreceived, Bits.ofBytes_append, Bits.ofBytes_append, stream, List.append_assoc,
    ← List.append_assoc c.buffer.content, ← hbits, List.append_assoc]
  exact (List.prefix_append_right_inj _).2 ((List.prefix_append_right_inj _).2 hlast)

theorem Fails.leavesPrefix_of_flush (h : Fails c c₁ bits (.flush false)) :
    LeavesPrefix c c₁ bits := by
  rw [← List.append_nil bits]
  exact h.leavesPrefix List.nil_prefix

/-- A failure at the sink that leaves buffer and byte count alone commits nothing. -/
theorem Fails.of_entry (hs : c.buffer.Sound) (hb : c₁.buffer = c.buffer)
    (hwritten : c₁.bytesWritten = c.bytesWritten) (hn : ¬ c.sink.NeverFails) (hl : last.Failed)
    (hsink : c.sink.Extends c₁.sink [last]) : Fails c c₁ [] last := by
  have hh : [last].flatMap SinkEntry.handedOver = [] := by
    rw [List.flatMap_singleton, hl.handedOver_eq]
  refine ⟨hn, hl, [], nofun, hb ▸ hs, by rw [hb], hsink, ?_, ?_, ?_⟩ <;> rw [List.nil_append, hh]
  · exact hwritten
  · exact Nat.dvd_zero _
  · rw [hb, List.append_nil]
    rfl

end Channel
end BitTransducer
