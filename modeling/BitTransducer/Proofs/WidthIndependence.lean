import Mathlib.Order.Basic
import BitTransducer.Proofs.BitBuffer.Accumulation
import BitTransducer.Proofs.Channel.Stream

/-! # Both word widths spell the same bytes

Buffers and channels pack bits into words of their width, cut them at different places and give them
out in words of different sizes, yet the bytes are those of the bits. Only the zeros that fill up
the last word of a channel show the width, by four bytes at most.

Main statement: `same_bytes_at_both_widths`. -/

namespace BitTransducer

namespace Bits

/-- Padding to a unit first makes no difference to padding to a multiple of it. -/
theorem padTo_padTo {unit n : Nat} (bits : List Bool) (h : 0 < unit) (hn : 0 < n) :
    padTo (n * unit) (padTo unit bits) = padTo (n * unit) bits := by
  have hmul : 0 < n * unit := Nat.mul_pos hn h
  have hceil : ceilDiv (padTo unit bits).length (n * unit) = ceilDiv bits.length (n * unit) := by
    refine eq_of_forall_ge_iff fun limit => ?_
    rw [length_padTo _ _ h, ceilDiv_le_iff hmul, ceilDiv_le_iff hmul, ← Nat.mul_assoc,
      Nat.mul_le_mul_right_iff h, ceilDiv_le_iff h]
  have hle := le_ceilDiv_mul bits.length h
  have hle' := le_ceilDiv_mul (padTo unit bits).length hmul
  rw [hceil, length_padTo _ _ h] at hle'
  rw [padTo, hceil, length_padTo _ _ h, padTo, padTo, List.append_assoc,
    List.replicate_append_replicate]
  congr 2
  omega

/-- Bytes that spell the same bits, filled up to words of either width, differ in the zero bytes of
half a word at most. -/
theorem eq_append_of_padTo_both {received₃₂ received₆₄ : List UInt8} {bits : List Bool}
    (h₃₂ : ofBytes received₃₂ = padTo Width.w32.bits bits)
    (h₆₄ : ofBytes received₆₄ = padTo Width.w64.bits bits) :
    ∃ n, received₆₄ = received₃₂ ++ List.replicate n 0 ∧ 8 ∣ received₆₄.length ∧
      (n = 0 ∨ n = 4) := by
  have hpad : padTo Width.w64.bits (padTo Width.w32.bits bits) = padTo Width.w64.bits bits :=
    padTo_padTo (n := 2) bits Width.w32.bits_pos Nat.two_pos
  rw [← hpad, ← h₃₂] at h₆₄
  obtain ⟨n, hn, hdvd, hreceived⟩ := eq_append_of_padTo h₆₄
  have hlength := congrArg List.length h₃₂
  rw [length_ofBytes, length_padTo _ _ Width.w32.bits_pos] at hlength
  refine ⟨n, hreceived, ?_, ?_⟩
  · rwa [hreceived, List.length_append, List.length_replicate]
  · change n < 8 at hn
    change 8 ∣ _ at hdvd
    change _ = _ * 32 at hlength
    omega

end Bits

/-- The word width does not show in bytes. Channels of both widths, of any capacities and at any
sinks that never fail, bring the same bytes to their sinks for the same bits, however these are cut
into calls at either width: the bits, filled up to whole words. The wider one brings none or four
zero bytes more, which make the length a multiple of eight. Buffers of both widths to which the same
bits were appended hold these bits and read the same. -/
theorem same_bytes_at_both_widths :
    (∀ (acceptances₃₂ acceptances₆₄ : List Acceptance) (flushes₃₂ flushes₆₄ : List (Option String))
        (capacity₃₂ capacity₆₄ : Nat) (calls₃₂ : List (Channel.Call .w32))
        (calls₆₄ : List (Channel.Call .w64)),
      (Sink.scheduled acceptances₃₂ flushes₃₂).NeverFails →
      (Sink.scheduled acceptances₆₄ flushes₆₄).NeverFails →
      (∀ call ∈ calls₃₂, call.Valid) → (∀ call ∈ calls₆₄, call.Valid) →
      Channel.written calls₃₂ = Channel.written calls₆₄ →
      ∃ (c₃₂ : Channel .w32) (c₆₄ : Channel .w64) (n : Nat),
        (forM (calls₃₂ ++ [.finish]) Channel.Call.run : Channel.Action .w32 Unit)
          (.ofSink (.scheduled acceptances₃₂ flushes₃₂) capacity₃₂) = .ok () c₃₂ ∧
        (forM (calls₆₄ ++ [.finish]) Channel.Call.run : Channel.Action .w64 Unit)
          (.ofSink (.scheduled acceptances₆₄ flushes₆₄) capacity₆₄) = .ok () c₆₄ ∧
        Bits.ofBytes c₃₂.sink.received = Bits.padTo Width.w32.bits (Channel.written calls₃₂) ∧
        c₆₄.sink.received = c₃₂.sink.received ++ List.replicate n 0 ∧
        8 ∣ c₆₄.sink.received.length ∧ (n = 0 ∨ n = 4)) ∧
    ∀ (ε : Type) (bytes₃₂ bytes₆₄ : Nat) (calls₃₂ : List (BitBuffer.Call ε .w32))
        (calls₆₄ : List (BitBuffer.Call ε .w64)),
      (∀ call ∈ calls₃₂, call.Appends) → (∀ call ∈ calls₆₄, call.Appends) →
      BitBuffer.accumulated calls₃₂ = BitBuffer.accumulated calls₆₄ →
      ∃ (t₃₂ : Tracked .w32) (t₆₄ : Tracked .w64),
        (forM calls₃₂ BitBuffer.Call.run : Tracked.Action ε .w32 Unit) (.ofCapacity bytes₃₂) =
          .ok () t₃₂ ∧
        (forM calls₆₄ BitBuffer.Call.run : Tracked.Action ε .w64 Unit) (.ofCapacity bytes₆₄) =
          .ok () t₆₄ ∧
        t₃₂.buffer.content = BitBuffer.accumulated calls₃₂ ∧
        t₃₂.buffer.position = t₆₄.buffer.position ∧
        t₃₂.buffer.toBytes = t₆₄.buffer.toBytes := by
  constructor
  · intro _ _ _ _ capacity₃₂ capacity₆₄ _ _ hs₃₂ hs₆₄ hv₃₂ hv₆₄ hw
    obtain ⟨c₃₂, hrun₃₂, hbits₃₂⟩ := Channel.exists_finished hs₃₂ rfl capacity₃₂ hv₃₂
    obtain ⟨c₆₄, hrun₆₄, hbits₆₄⟩ := Channel.exists_finished hs₆₄ rfl capacity₆₄ hv₆₄
    obtain ⟨n, hreceived⟩ := Bits.eq_append_of_padTo_both hbits₃₂ (hw ▸ hbits₆₄)
    exact ⟨c₃₂, c₆₄, n, hrun₃₂, hrun₆₄, hbits₃₂, hreceived⟩
  · intro _ bytes₃₂ bytes₆₄ _ _ ha₃₂ ha₆₄ hb
    obtain ⟨t₃₂, hrun₃₂, hsnug₃₂, hc₃₂⟩ := BitBuffer.exists_accumulated_ofCapacity ha₃₂ bytes₃₂
    obtain ⟨t₆₄, hrun₆₄, hsnug₆₄, hc₆₄⟩ := BitBuffer.exists_accumulated_ofCapacity ha₆₄ bytes₆₄
    have hc : t₃₂.buffer.content = t₆₄.buffer.content := by rw [hc₃₂, hb, hc₆₄]
    have hs₃₂ := hsnug₃₂.sound
    have hs₆₄ := hsnug₆₄.sound
    exact ⟨t₃₂, t₆₄, hrun₃₂, hrun₆₄, hc₃₂, hs₃₂.position_eq_of_content_eq hs₆₄ hc,
      hs₃₂.toBytes_eq_of_content_eq hs₆₄ hc⟩

/-- Forty-three bits, forty of them from words of either width: the wider channel fills up its one
word, the narrower one two. -/
theorem same_bytes_of_bulk_words :
    (∃ (c₃₂ : Channel .w32) (c₆₄ : Channel .w64) (n : Nat),
      (forM ([.write 0xa0000000 3, .writeWords [0xdeadbeef, 0xff123456] 40] ++ [.finish])
        Channel.Call.run : Channel.Action .w32 Unit)
        (.ofSink (.scheduled [.take 1, .interrupted] []) 0) = .ok () c₃₂ ∧
      (forM ([.write 0xa000000000000000 3, .flush, .writeWordsDirect [0xdeadbeefff000000] 40] ++
        [.finish]) Channel.Call.run : Channel.Action .w64 Unit)
        (.ofSink (.scheduled [] [none]) 16) = .ok () c₆₄ ∧
      c₆₄.sink.received = c₃₂.sink.received ++ List.replicate n 0) ∧
    ∃ (t₃₂ : Tracked .w32) (t₆₄ : Tracked .w64),
      (forM [.append 0xdeadbeef 32, .append 0xff000000 8] BitBuffer.Call.run :
        Tracked.Action String .w32 Unit) (.ofCapacity 0) = .ok () t₃₂ ∧
      (forM [.appendWords [0xdeadbeefff000000] 40] BitBuffer.Call.run :
        Tracked.Action String .w64 Unit) (.ofCapacity 0) = .ok () t₆₄ ∧
      t₃₂.buffer.toBytes = t₆₄.buffer.toBytes := by
  obtain ⟨hchannels, hbuffers⟩ := same_bytes_at_both_widths
  constructor
  · obtain ⟨c₃₂, c₆₄, n, hrun₃₂, hrun₆₄, -, hreceived, -⟩ := hchannels [.take 1, .interrupted] [] []
      [none] 0 16 [.write 0xa0000000 3, .writeWords [0xdeadbeef, 0xff123456] 40]
      [.write 0xa000000000000000 3, .flush, .writeWordsDirect [0xdeadbeefff000000] 40]
      (by decide) (by decide) (by decide) (by decide) (by decide)
    exact ⟨c₃₂, c₆₄, n, hrun₃₂, hrun₆₄, hreceived⟩
  · obtain ⟨t₃₂, t₆₄, hrun₃₂, hrun₆₄, -, -, hbytes⟩ := hbuffers String 0 0
      [.append 0xdeadbeef 32, .append 0xff000000 8] [.appendWords [0xdeadbeefff000000] 40]
      (by decide) (by decide) (by decide)
    exact ⟨t₃₂, t₆₄, hrun₃₂, hrun₆₄, hbytes⟩

end BitTransducer
