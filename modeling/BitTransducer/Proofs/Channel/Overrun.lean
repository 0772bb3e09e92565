import BitTransducer.Proofs.Channel.Margin

/-! # When a call overruns the buffer

A write that fails leaves its bits in the buffer, and the cursor may then be anywhere in the last
word. Every kind of call reacts to that in its own way: single writes and bulk writes break their
contract as soon as the cursor has passed the start of the last word, direct writes and padding only
if they have to shift into place there, and flushes never. A flush that succeeds sets the channel
right again.

Main statements: `Call.run_of_overruns`, `Call.ends_run_overruns` (one call, both ways) and
`Run.breaks_iff_overruns`. -/

namespace BitTransducer
namespace Channel

variable {W : Width} {c : Channel W}

/-! ## Calls that break -/

private theorem get_bind_eq {α : Type} (f : Channel W → Action W α) :
    ((get : Action W (Channel W)) >>= f) c = f c c := rfl

private theorem inBounds_bind_of_not {α : Type} {p : Prop} [Decidable p] {f : Unit → Action W α}
    (h : ¬ p) : (inBounds p >>= f) c = .error (.violation .outOfBounds) c :=
  bind_of_error (by rw [inBounds, if_neg h]; rfl)

theorem write_of_not_hasRoom (h : ¬ c.buffer.HasRoom) (word : Word W) (count : Nat) :
    write word count c = .error (.violation .outOfBounds) c := inBounds_bind_of_not h

/-- The first of the words finds no room. -/
theorem writeShifted_of_not_hasRoom (h : ¬ c.buffer.HasRoom) {words : List (Word W)} {count : Nat}
    (h0 : 0 < count) (hw : Words.Hold words count) :
    writeShifted words count c = .error (.violation .outOfBounds) c := by
  have hwhole : Words.Hold words (count / W.bits * W.bits) := hw.mono (Nat.div_mul_le_self ..)
  obtain ⟨piece, pieces, hpieces⟩ : ∃ piece pieces, Words.pieces words count = piece :: pieces := by
    cases words with
    | nil => exact absurd (Nat.lt_of_lt_of_le h0 hw) (by rw [List.length_nil]; omega)
    | cons word words =>
      rw [Words.pieces]
      split
      · exact ⟨_, _, rfl⟩
      · rw [if_neg (Nat.ne_of_gt h0)]
        exact ⟨_, _, rfl⟩
  refine (bind_of_ok (inBounds_eq_ok hwhole)).trans (bind_of_error ?_)
  rw [hpieces, List.forM_eq_forM, List.forM_cons]
  exact bind_of_error (write_of_not_hasRoom h ..)

/-- No bits need no room. -/
theorem writeShifted_zero (words : List (Word W)) : writeShifted words 0 c = .ok () c := by
  have hhold : Words.Hold words 0 := Nat.zero_le _
  have hpieces : Words.pieces words 0 = [] := by
    cases words with
    | nil => rfl
    | cons word words => rw [Words.pieces, if_neg (Nat.not_le.2 W.bits_pos), if_pos rfl]
  refine (bind_of_ok (inBounds_eq_ok ?_)).trans ?_
  · rwa [Nat.zero_div, Nat.zero_mul]
  · rw [hpieces]
    exact inBounds_eq_ok hhold

/-- The first of the blocks finds the buffer full. -/
theorem writeBlocks_of_not_hasRoom (ha : c.buffer.isAligned = true) (h : ¬ c.buffer.HasRoom)
    (words : List (Word W)) {count : Nat} (h0 : 0 < count) (limit : Nat) :
    writeBlocks (limit + 1) words count c = .error (.violation .outOfBounds) c := by
  rw [BitBuffer.HasRoom, if_pos ha] at h
  rw [writeBlocks]
  · exact bind_of_error (inBounds_bind_of_not h)
  · exact Nat.ne_of_gt h0

/-! ## Which calls break -/

namespace Call

/-- The call breaks its contract on a channel with the buffer `b`: it writes at a cursor that has
passed the start of the last word. Direct writes and padding do so at a word in which bits are
written already, and bulk writes only if there is something to write. -/
def Overruns (b : BitBuffer W) : Call W → Prop
  | write .. => (b.storage.size - 1) * W.bits < b.position
  | writeWords _ count => 0 < count ∧ (b.storage.size - 1) * W.bits < b.position
  | writeWordsDirect _ count =>
    0 < count ∧ b.isAligned = false ∧ (b.storage.size - 1) * W.bits < b.position
  | writeBuffer source =>
    0 < source.position ∧ b.isAligned = false ∧ (b.storage.size - 1) * W.bits < b.position
  | flush => False
  | pad => b.isAligned = false ∧ (b.storage.size - 1) * W.bits < b.position
  | flushSink => False
  | finish => b.isAligned = false ∧ (b.storage.size - 1) * W.bits < b.position

instance (b : BitBuffer W) : DecidablePred (Overruns b)
  | write .. => inferInstanceAs (Decidable (_ < _))
  | writeWords .. => inferInstanceAs (Decidable (_ ∧ _))
  | writeWordsDirect .. => inferInstanceAs (Decidable (_ ∧ _ ∧ _))
  | writeBuffer _ => inferInstanceAs (Decidable (_ ∧ _ ∧ _))
  | flush => inferInstanceAs (Decidable False)
  | pad => inferInstanceAs (Decidable (_ ∧ _))
  | flushSink => inferInstanceAs (Decidable False)
  | finish => inferInstanceAs (Decidable (_ ∧ _))

theorem Overruns.not_hasRoom {call : Call W} (h : call.Overruns c.buffer) (hs : c.buffer.Sound) :
    ¬ c.buffer.HasRoom := by
  refine hs.not_hasRoom_iff.2 ?_
  cases call with
  | write => exact h
  | writeWords | pad | finish => exact h.2
  | writeWordsDirect | writeBuffer => exact h.2.2
  | flush | flushSink => exact h.elim

private theorem pad_of_not_hasRoom (ha : c.buffer.isAligned = false) (h : ¬ c.buffer.HasRoom) :
    Channel.pad c = .error (.violation .outOfBounds) c := by
  have hoffset : c.buffer.offset ≠ 0 := of_decide_eq_false ha
  refine (get_bind_eq _).trans ?_
  rw [if_pos hoffset]
  exact write_of_not_hasRoom h ..

private theorem writeWordsDirect_of_not_hasRoom (ha : c.buffer.isAligned = false)
    (h : ¬ c.buffer.HasRoom) {words : List (Word W)} {count : Nat} (h0 : 0 < count)
    (hw : Words.Hold words count) :
    Channel.writeWordsDirect words count c = .error (.violation .outOfBounds) c := by
  refine (get_bind_eq _).trans ?_
  rw [if_neg (ne_true_of_eq_false ha)]
  exact writeShifted_of_not_hasRoom h h0 hw

theorem run_of_overruns (hs : c.buffer.Sound) {call : Call W} (hv : call.Valid)
    (ho : call.Overruns c.buffer) : call.run c = .error (.violation .outOfBounds) c := by
  have h := ho.not_hasRoom hs
  cases call with
  | write word count => exact write_of_not_hasRoom h word count
  | writeWords words count =>
    refine (get_bind_eq _).trans ?_
    split
    · exact writeBlocks_of_not_hasRoom ‹_› h words ho.1 count
    · exact writeShifted_of_not_hasRoom h ho.1 hv
  | writeWordsDirect words count => exact writeWordsDirect_of_not_hasRoom ho.2.1 h ho.1 hv
  | writeBuffer source =>
    exact writeWordsDirect_of_not_hasRoom ho.2.1 h ho.1 (BitBuffer.hold_writtenWords_iff.2 hv)
  | flush | flushSink => exact ho.elim
  | pad => exact pad_of_not_hasRoom ho.1 h
  | finish => exact bind_of_error (pad_of_not_hasRoom ho.1 h)

private theorem ends_writeDirect_overruns (hs : c.buffer.Sound) {words : List (Word W)}
    {count : Nat} (hw : Words.Hold words count) :
    Ends (Channel.writeWordsDirect words count c) (fun _ _ => True) (fun _ _ => True)
      (0 < count ∧ c.buffer.isAligned = false ∧
        (c.buffer.storage.size - 1) * W.bits < c.buffer.position) := by
  cases ha : c.buffer.isAligned with
  | true =>
    exact (ends_writeWordsDirect hs words count).mono (fun _ _ _ => trivial) (fun _ _ _ => trivial)
      fun h => absurd ⟨.inl ha, hw⟩ h
  | false =>
    refine .get_bind ?_
    rw [if_neg (ne_true_of_eq_false ha)]
    cases count with
    | zero =>
      rw [writeShifted_zero]
      trivial
    | succ count =>
      exact (ends_writeShifted hs words _).mono (fun _ _ _ => trivial) (fun _ _ _ => trivial)
        fun h => ⟨Nat.succ_pos _, rfl, hs.not_hasRoom_iff.1 fun hr => h ⟨hr, hw⟩⟩

/-- Nothing else makes a valid call break its contract. -/
theorem ends_run_overruns (hs : c.buffer.Sound) {call : Call W} (hv : call.Valid) :
    Ends (call.run c) (fun _ _ => True) (fun _ _ => True) (call.Overruns c.buffer) := by
  have hpad : ¬ (c.buffer.isAligned = true ∨ c.buffer.HasRoom) →
      c.buffer.isAligned = false ∧ (c.buffer.storage.size - 1) * W.bits < c.buffer.position :=
    fun h => ⟨Bool.eq_false_iff.2 (mt .inl h), hs.not_hasRoom_iff.1 (mt .inr h)⟩
  cases call with
  | write word count =>
    exact (ends_write hs hv).mono (fun _ _ _ => trivial) (fun _ _ _ => trivial)
      hs.not_hasRoom_iff.1
  | writeWords words count =>
    cases count with
    | zero =>
      refine .get_bind ?_
      split
      · trivial
      · rw [writeShifted_zero]
        trivial
    | succ count =>
      exact (ends_writeWords hs words _).mono (fun _ _ _ => trivial) (fun _ _ _ => trivial)
        fun h => ⟨Nat.succ_pos _, hs.not_hasRoom_iff.1 fun hr => h ⟨hr, hv⟩⟩
  | writeWordsDirect words count => exact ends_writeDirect_overruns hs hv
  | writeBuffer source =>
    exact ends_writeDirect_overruns hs (BitBuffer.hold_writtenWords_iff.2 hv)
  | flush =>
    exact (ends_flush hs).mono (fun _ _ _ => trivial) (fun _ _ _ => trivial) id
  | flushSink =>
    exact (ends_flushSink hs).mono (fun _ _ _ => trivial) (fun _ _ _ => trivial) id
  | pad => exact (ends_pad hs).mono (fun _ _ _ => trivial) (fun _ _ _ => trivial) hpad
  | finish => exact (ends_finish hs).mono (fun _ _ _ => trivial) (fun _ _ _ => trivial) hpad

theorem breaks_iff (hs : c.buffer.Sound) {call : Call W} (hv : call.Valid) :
    (∃ cause c', call.run c = .error (.violation cause) c') ↔ call.Overruns c.buffer := by
  constructor
  · rintro ⟨cause, c', hbreaks⟩
    have h := ends_run_overruns hs hv
    rwa [hbreaks] at h
  · exact fun h => ⟨_, _, run_of_overruns hs hv h⟩

end Call

/-- A flush that succeeds hands over all but the partial word, which comes to the front. -/
theorem advances_of_flush (hs : c.buffer.Sound) {c₁ : Channel W} (h : flush c = .ok () c₁) :
    Advances c c₁ [] ∧ c₁.buffer.position = c.buffer.offset := by
  have hends := ends_flush hs
  rwa [h] at hends

/-- Whatever failed before, a call breaks its contract exactly when it overruns. A flush that
succeeds hands over all complete words and loses nothing, and from then on every call returns until
a delivery fails in the middle of a write again. -/
theorem Run.breaks_iff_overruns {returned : List (Returned W)} (h : Run returned c) :
    (∀ call : Call W, call.Valid →
      ((∃ cause c', call.run c = .error (.violation cause) c') ↔ call.Overruns c.buffer)) ∧
    ∀ c₁, flush c = .ok () c₁ →
      c₁.stream = c.stream ∧ c₁.buffer.completeCount = 0 ∧
        c₁.buffer.position = c.buffer.offset ∧ c₁.buffer.position < W.bits ∧
        ∀ later c₂, Path c₁ later c₂ → (∀ r ∈ later, r.Spared) →
          ∀ call : Call W, call.Valid → ∃ error? c₃, Returns call.run c₂ error? c₃ := by
  refine ⟨fun call hv => Call.breaks_iff h.sound hv, fun c₁ hflush => ?_⟩
  obtain ⟨hadvances, hp⟩ := advances_of_flush h.sound hflush
  have hs := hadvances.sound
  have hlt : c₁.buffer.position < W.bits := hp ▸ c.buffer.offset_lt
  have hstream : c₁.stream = c.stream := hadvances.stream_eq.trans (List.append_nil _)
  refine ⟨hstream, Nat.div_eq_of_lt hlt, hp, hlt, fun later c₂ hpath hspared call hv => ?_⟩
  exact hpath.exists_returns hs (hs.nearEnd_eq_false hlt) hspared call hv

/-- Two writes that a full disk failed leave the cursor in the middle of the last word, where
padding overruns the buffer. After a flush it does not. -/
theorem Run.pad_overruns_after_full_disk :
    ∃ (returned : List (Returned .w32)) (c : Channel .w32), Run returned c ∧
      returned.map (·.error?) = [some (.write "disk full"), some (.write "disk full")] ∧
      c.buffer.storage.size = 2 ∧ c.buffer.position = 40 ∧
      (∃ cause c', Call.pad.run c = .error (.violation cause) c') ∧
      ∃ c₁, flush c = .ok () c₁ ∧ c₁.buffer.position = 8 ∧
        ∃ error? c₂, Returns Call.pad.run c₁ error? c₂ := by
  have hstart : Run (W := .w32) [] _ := .start [.failure "disk full", .failure "disk full"] [] 0
  have hwrite := hstart.call (.write 0xdeadbeef 32) (some (.write "disk full")) (by decide) rfl
  have hagain := hwrite.call (.write 0xff000000 8) (some (.write "disk full")) (by decide) rfl
  obtain ⟨hbreaks, hflush⟩ := hagain.breaks_iff_overruns
  obtain ⟨-, -, hp, -, hlater⟩ := hflush _ rfl
  exact ⟨_, _, hagain, rfl, rfl, rfl, (hbreaks .pad trivial).2 (by decide), _, rfl, hp,
    hlater _ _ .refl nofun .pad trivial⟩

end Channel
end BitTransducer
