import Mathlib.Data.List.Induction
import BitTransducer.Proofs.Channel.Calls

/-! # The stream law

At a sink that never fails, all calls on a channel succeed, and the bytes of the sink followed by
the buffered bits are at all times the bits written so far.

Main statement: `stream_eq_written`. -/

namespace BitTransducer
namespace Channel

variable {W : Width}

/-- The bits that the calls write, made in turn on an empty channel. -/
def written (calls : List (Call W)) : List Bool :=
  calls.foldl (fun bits call => bits ++ call.bits bits.length) []

theorem written_concat (calls : List (Call W)) (call : Call W) :
    written (calls ++ [call]) = written calls ++ call.bits (written calls).length := by
  rw [written, List.foldl_append]
  rfl

/-- What a finished channel has written is a whole number of words. -/
theorem written_finish (calls : List (Call W)) :
    written (calls ++ [.finish]) = Bits.padTo W.bits (written calls) := written_concat ..

/-- Only padding looks at what was written before it. -/
theorem written_append_eq (earlier : List (Call W)) {calls : List (Call W)}
    (h : ∀ call ∈ calls, call ≠ .pad ∧ call ≠ .finish) :
    written (earlier ++ calls) = written earlier ++ calls.flatMap (·.bits 0) := by
  induction calls using List.reverseRecOn with
  | nil => simp
  | append_singleton calls call ih =>
    have hcalls := ih fun call' hmem => h call' (List.mem_append_left _ hmem)
    obtain ⟨hpad, hfinish⟩ := h call (List.mem_append_right _ List.mem_cons_self)
    rw [← List.append_assoc, written_concat, hcalls, List.flatMap_append, List.flatMap_singleton,
      List.append_assoc]
    cases call with
    | pad => exact absurd rfl hpad
    | finish => exact absurd rfl hfinish
    | _ => rfl

theorem written_eq_flatMap {calls : List (Call W)}
    (h : ∀ call ∈ calls, call ≠ .pad ∧ call ≠ .finish) : written calls = calls.flatMap (·.bits 0) :=
  written_append_eq [] h

theorem sound_ofSink (sink : Sink) (capacity : Nat) :
    (ofSink sink capacity : Channel W).buffer.Sound := BitBuffer.sound_withCapacity _

theorem nearEnd_ofSink (sink : Sink) (capacity : Nat) :
    (ofSink sink capacity : Channel W).buffer.nearEnd = false :=
  (sound_ofSink sink capacity).nearEnd_eq_false W.bits_pos

/-- All calls succeed, none leaves the cursor near the end, and together they commit what they
write. -/
theorem ends_forM_run {sink : Sink} (hs : sink.NeverFails) (capacity : Nat) {calls : List (Call W)}
    (hv : ∀ call ∈ calls, call.Valid) :
    Ends ((forM calls Call.run : Action W Unit) (ofSink sink capacity))
      (fun _ c => Advances (ofSink sink capacity) c (written calls) ∧ c.buffer.nearEnd = false ∧
        ∀ earlier, calls = earlier ++ [.finish] → c.buffer.position = 0)
      (fun _ _ => False) False := by
  induction calls using List.reverseRecOn with
  | nil =>
    exact ⟨.refl (sound_ofSink ..), nearEnd_ofSink .., fun _ _ => rfl⟩
  | append_singleton calls call ih =>
    have hvalid := hv call (List.mem_append_right _ List.mem_cons_self)
    rw [List.forM_append]
    have hearlier := ih fun call' hmem => hv call' (List.mem_append_left _ hmem)
    refine .bind (hearlier.mono ?_ (fun _ _ => False.elim) id)
    intro _ c h
    obtain ⟨h, hn, -⟩ := h
    rw [List.forM_cons]
    have hroom := BitBuffer.hasRoom_of_nearEnd hn
    refine .bind ((Call.ends_run h.sound call hvalid).mono ?_ ?_ (absurd hroom))
    · intro _ c' h'
      obtain ⟨h', hn', hp⟩ := h'
      refine ⟨?_, hn' hn, fun earlier he => hp ?_⟩
      · have ho : c.buffer.offset = (0 + (written calls).length) % W.bits :=
          h.offset_eq (sound_ofSink ..)
        rw [Nat.zero_add] at ho
        rw [written_concat, call.bits_congr ho.symm]
        exact h.trans h'
      · exact List.singleton_inj.1 (List.append_inj_right' he rfl)
    · intro _ c' h'
      obtain ⟨_, _, hf, -⟩ := h'
      exact hf.1 (h.neverFails hs)

/-- A channel that is finished has handed over what was written, filled up to whole words. -/
theorem exists_finished {sink : Sink} (hs : sink.NeverFails) (hj : sink.journal = #[])
    (capacity : Nat) {calls : List (Call W)} (hv : ∀ call ∈ calls, call.Valid) :
    ∃ c : Channel W,
      (forM (calls ++ [.finish]) Call.run : Action W Unit) (ofSink sink capacity) = .ok () c ∧
      Bits.ofBytes c.sink.received = Bits.padTo W.bits (written calls) := by
  have hvalid : ∀ call ∈ calls ++ [.finish], call.Valid := by
    intro call hmem
    rcases List.mem_append.1 hmem with hmem | hmem
    · exact hv call hmem
    · rw [List.mem_singleton.1 hmem]
      exact trivial
  obtain ⟨_, c, hc, h, -, hp⟩ := (ends_forM_run hs capacity hvalid).exists_ok
  have hstream := h.stream_eq
  rw [stream, BitBuffer.content, hp calls rfl, List.take_zero, List.append_nil, written_finish,
    stream, ofSink, BitBuffer.content_withCapacity, Sink.received_eq sink, hj] at hstream
  exact ⟨c, hc, hstream⟩

/-- The stream law: at a sink that never fails, however few bytes it takes at a time and however
often it is interrupted, every sequence of calls succeeds, and so does every part of it that is made
first. The stream is then what the calls write, and all bytes of the sink are counted. A channel
that is finished has handed everything over, filled up with zeros to whole words. -/
theorem stream_eq_written {acceptances : List Acceptance} {flushes : List (Option String)}
    (hs : (Sink.scheduled acceptances flushes).NeverFails) (capacity : Nat)
    {calls : List (Call W)} (hv : ∀ call ∈ calls, call.Valid) :
    ∃ c : Channel W,
      (forM calls Call.run : Action W Unit) (ofSink (.scheduled acceptances flushes) capacity) =
        .ok () c ∧
      c.stream = written calls ∧ c.bytesWritten = c.sink.received.length ∧
      ∀ earlier, calls = earlier ++ [.finish] → c.buffer.position = 0 ∧
        Bits.ofBytes c.sink.received = Bits.padTo W.bits (written earlier) ∧
        c.sink.received.length =
          Bits.ceilDiv (written earlier).length W.bits * W.bytes := by
  obtain ⟨_, c, hc, h, -, hfinish⟩ := (ends_forM_run hs capacity hv).exists_ok
  have hstream : c.stream = written calls := by
    rw [h.stream_eq, stream, ofSink, BitBuffer.content_withCapacity]
    rfl
  refine ⟨c, hc, hstream, ?_, fun earlier he => ?_⟩
  · obtain ⟨handedOver, hr, hb, -⟩ := h.received_eq
    rw [hr, hb, List.length_append]
    rfl
  · have hp := hfinish earlier he
    have hbits : Bits.ofBytes c.sink.received = Bits.padTo W.bits (written earlier) := by
      rw [← written_finish, ← he, ← hstream, stream, BitBuffer.content, hp, List.take_zero,
        List.append_nil]
    refine ⟨hp, hbits, ?_⟩
    have hl := congrArg List.length hbits
    rw [Bits.length_ofBytes, Bits.length_padTo _ _ W.bits_pos] at hl
    rw [W.bits_eq, Nat.mul_left_comm, ← W.bits_eq] at hl
    exact Nat.eq_of_mul_eq_mul_left (by decide) hl

/-- Forty-three bits take eight bytes, however the sink takes them. -/
theorem stream_at_interrupted_sink :
    ∃ c : Channel .w32,
      (forM [.write 0xa0000000 3, .writeWords [0xdeadbeef, 0xffffffff] 40, .finish] Call.run :
        Action .w32 Unit) (ofSink (.scheduled [.take 1, .interrupted, .take 2] [none]) 0) =
          .ok () c ∧
      c.bytesWritten = 8 ∧ c.buffer.position = 0 := by
  obtain ⟨c, hc, -, hb, hfinish⟩ := stream_eq_written (W := .w32)
    (show (Sink.scheduled [.take 1, .interrupted, .take 2] [none]).NeverFails by decide) 0
    (show ∀ call ∈ [.write 0xa0000000 3, .writeWords [0xdeadbeef, 0xffffffff] 40, .finish],
      Call.Valid call by decide)
  obtain ⟨hp, -, hl⟩ := hfinish [.write 0xa0000000 3, .writeWords [0xdeadbeef, 0xffffffff] 40] rfl
  exact ⟨c, hc, hb.trans (hl.trans (by decide)), hp⟩

end Channel
end BitTransducer
