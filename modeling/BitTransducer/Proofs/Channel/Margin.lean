import BitTransducer.Proofs.Channel.Faults

/-! # The margin of a channel

The last word of a channel's buffer is kept free for what a write spills: as long as the cursor is
before it, every call finds room. A call that returns leaves the margin free, unless the sink fails
it in the middle of a write. So the margin is free along every `Path` of calls on which no delivery
failed but those of flushes made for their own sake.

Main statements: `Returned.Spared.nearEnd_eq_false` (one call) and `Path.keeps_margin_free`. -/

namespace BitTransducer
namespace Channel

variable {W : Width} {c c' : Channel W} {returned : List (Returned W)}

/-- The calls that returned, made in turn from `c` on, lead to `c'`. -/
inductive Path (c : Channel W) : List (Returned W) → Channel W → Prop
  | refl : Path c [] c
  | call {returned : List (Returned W)} {c₁ c₂ : Channel W} (h : Path c returned c₁) (call : Call W)
      (error? : Option StreamError) (hv : call.Valid) (hr : Returns call.run c₁ error? c₂) :
      Path c (returned ++ [⟨c₁, call, error?, c₂⟩]) c₂

/-- No delivery failed during the call, unless it is a flush. -/
def Returned.Spared (r : Returned W) : Prop :=
  r.call = .flush ∨ ∀ e ∈ r.entries, e.Failed → e.isFlush = true

/-- Where nothing was committed, the cursor did not advance. -/
theorem Fails.position_le {last : SinkEntry} (h : Fails c c' [] last) (hs : c.buffer.Sound) :
    c'.buffer.position ≤ c.buffer.position := by
  obtain ⟨-, -, done, -, hp⟩ := h
  exact Nat.le_of_add_left_le (Nat.le_of_eq (hp.position_eq hs))

theorem Fails.nearEnd_eq_false {last : SinkEntry} (h : Fails c c' [] last) (hs : c.buffer.Sound)
    (hn : c.buffer.nearEnd = false) : c'.buffer.nearEnd = false := by
  have hsize : c'.buffer.storage.size = c.buffer.storage.size := h.2.2.elim fun _ h => h.2.size_eq
  rw [BitBuffer.nearEnd_eq_false_iff] at hn ⊢
  rw [hsize]
  exact Nat.lt_of_le_of_lt (h.position_le hs) hn

namespace Returned

variable {r : Returned W}

theorem Spared.isFlush {bits : List Bool} {last : SinkEntry} (h : r.Spared) (hc : r.call ≠ .flush)
    (hf : Fails r.before r.after bits last) : last.isFlush = true := by
  obtain ⟨-, hl, done, -, hp⟩ := hf
  refine h.resolve_left hc last ?_ hl
  rw [entries, hp.sink.entriesFrom_eq]
  exact List.mem_append_right _ List.mem_cons_self

theorem Spared.nearEnd_eq_false (h : r.Spared) (hs : r.before.buffer.Sound)
    (hn : r.before.buffer.nearEnd = false) (hv : r.call.Valid)
    (hr : Returns r.call.run r.before r.error? r.after) : r.after.buffer.nearEnd = false := by
  obtain ⟨before, call, error?, after⟩ := r
  rcases (Call.ends_run hs call hv).of_returns hr with
    ⟨-, -, -, hnear, -⟩ | ⟨e, rfl, bits, last, hfails, hcommits⟩
  · exact hnear hn
  -- a write that failed at a delivery in the middle was not spared
  have hdirect {words : List (Word W)} {count : Nat} (hc : call ≠ .flush)
      (hd : Call.DirectCommitsOnError words count before.buffer after.buffer bits last) :
      after.buffer.nearEnd = false := by
    rw [Call.DirectCommitsOnError] at hd
    split at hd
    · subst hd
      exact hfails.nearEnd_eq_false hs hn
    · exact absurd (h.isFlush hc hfails) hd.1.isFlush_ne_true
  cases call with
  | write word count => exact absurd (h.isFlush (by simp) hfails) hcommits.1.isFlush_ne_true
  | writeWords words count => exact absurd (h.isFlush (by simp) hfails) hcommits.1.isFlush_ne_true
  | pad => exact absurd (h.isFlush (by simp) hfails) hcommits.1.isFlush_ne_true
  | writeWordsDirect words count => exact hdirect (by simp) hcommits
  | writeBuffer source => exact hdirect (by simp) hcommits
  | flush | flushSink =>
    obtain ⟨-, rfl⟩ := hcommits
    exact hfails.nearEnd_eq_false hs hn
  | finish =>
    rcases (ends_finish hs).of_returns hr with ⟨he, -⟩ | ⟨_, -, -, last, hfails, hzero⟩
    · cases he
    · have hp := hzero (h.isFlush (by simp) hfails)
      exact hfails.sound.nearEnd_eq_false (hp.symm ▸ W.bits_pos)

end Returned

namespace Path

theorem sound (h : Path c returned c') (hs : c.buffer.Sound) : c'.buffer.Sound := by
  induction h with
  | refl => exact hs
  | call _ _ _ hv hr ih =>
    obtain ⟨-, _, -, hp⟩ := Returned.progress (r := ⟨_, _, _, _⟩) ih hv hr
    exact hp.sound

/-- Whatever the sink does, the storage keeps its size. -/
theorem size_eq (h : Path c returned c') (hs : c.buffer.Sound) :
    c'.buffer.storage.size = c.buffer.storage.size := by
  induction h with
  | refl => rfl
  | call h _ _ hv hr ih =>
    obtain ⟨-, _, -, hp⟩ := Returned.progress (r := ⟨_, _, _, _⟩) (h.sound hs) hv hr
    exact hp.size_eq.trans ih

theorem keeps_margin_free (h : Path c returned c') (hs : c.buffer.Sound)
    (hn : c.buffer.nearEnd = false) (hspared : ∀ r ∈ returned, r.Spared) :
    c'.buffer.nearEnd = false := by
  induction h with
  | refl => exact hn
  | @call returned c₁ c₂ h call error? hv hr ih =>
    have hlast : Returned.Spared ⟨c₁, call, error?, c₂⟩ :=
      hspared _ (List.mem_append_right _ List.mem_cons_self)
    exact hlast.nearEnd_eq_false (h.sound hs)
      (ih fun r hmem => hspared r (List.mem_append_left _ hmem)) hv hr

/-- So every call that follows returns. -/
theorem exists_returns (h : Path c returned c') (hs : c.buffer.Sound)
    (hn : c.buffer.nearEnd = false) (hspared : ∀ r ∈ returned, r.Spared) (call : Call W)
    (hv : call.Valid) : ∃ error? c₁, Returns call.run c' error? c₁ :=
  (Call.ends_run (h.sound hs) call hv).exists_returns
    (not_not_intro (BitBuffer.hasRoom_of_nearEnd (h.keeps_margin_free hs hn hspared)))

end Path
end Channel
end BitTransducer
