import BitTransducer.BitBuffer.Tracked
import BitTransducer.Proofs.BitBuffer.Content
import BitTransducer.Proofs.Outcome

/-! # Histories of a bit buffer

A history is a list of calls on a buffer, each with the error that it returned, if any; `Run` says
that the calls, made in turn on an empty buffer, lead to a state without a violation. Nothing is
assumed about the order of the calls or about what their callers do with the near-end signal: only
the words of single writes have to end where their count says.

Growth by a shift that drops bits of the new length is a call like any other, and returns without a
word. It is the one call that can do harm (`Call.sound_iff_keeps`): with a shift by 63 no storage is
left. Histories in which what is left of the length is enough each time (`Call.Keeps`), as it is
wherever storage of the full length can exist, do not lose anything.

Main statements: `Run.sound_and_reset_eq` (every buffer that they reach has a zero tail, so that a
reset makes it as good as new) and `Run.refines_bits` (a buffer holds what the same history makes of
a plain list of bits). -/

namespace BitTransducer

variable {W : Width} {ε : Type}

/-! ## How tracked steps end -/

namespace Tracked

section

variable {fits : BitBuffer W → Prop} [DecidablePred fits] {step : BitBuffer W → BitBuffer W}

theorem updateIf_of_fits {t : Tracked W} (h : fits t.buffer) :
    (updateIf fits step : Action ε W Unit) t = .ok () { t with buffer := step t.buffer } := by
  rw [updateIf]
  exact if_pos h

theorem updateIf_of_not_fits {t : Tracked W} (h : ¬ fits t.buffer) :
    (updateIf fits step : Action ε W Unit) t = .error (.violation .outOfBounds) t := by
  rw [updateIf]
  exact if_neg h

end

theorem require_of {t : Tracked W} {cause : Violation} {p : Prop} [Decidable p] (h : p) :
    (require cause p : Action ε W Unit) t = .ok () t := by
  rw [require, if_pos h]
  rfl

theorem require_of_not {t : Tracked W} {cause : Violation} {p : Prop} [Decidable p] (h : ¬ p) :
    (require cause p : Action ε W Unit) t = .error (.violation cause) t := by
  rw [require, if_neg h]
  rfl

theorem nearEnd_of_pos {t : Tracked W} (h : 0 < t.buffer.storage.size) :
    (nearEnd : Action ε W Bool) t = .ok t.buffer.nearEnd t :=
  (bind_of_ok rfl).trans (bind_of_ok (require_of h))

theorem nearEnd_of_size_eq_zero {t : Tracked W} (h : t.buffer.storage.size = 0) :
    (nearEnd : Action ε W Bool) t = .error (.violation .overflow) t :=
  (bind_of_ok rfl).trans (bind_of_error (require_of_not (by omega)))

theorem write_of_hasRoom {t : Tracked W} (h : t.buffer.HasRoom) (word : Word W) (count : Nat) :
    (write word count : Action ε W Bool) t =
      .ok (t.buffer.put word count).nearEnd { t with buffer := t.buffer.put word count } := by
  refine (bind_of_ok (updateIf_of_fits h)).trans (nearEnd_of_pos ?_)
  rw [BitBuffer.size_storage_put]
  exact h.size_pos

theorem write_of_not_hasRoom {t : Tracked W} (h : ¬ t.buffer.HasRoom) (word : Word W)
    (count : Nat) :
    (write word count : Action ε W Bool) t = .error (.violation .outOfBounds) t :=
  bind_of_error (updateIf_of_not_fits h)

theorem ends_write (t : Tracked W) (word : Word W) (count : Nat) :
    Ends (write word count t : EStateM.Result (Failure ε) _ _)
      (fun _ t' => t.buffer.HasRoom ∧ t'.buffer = t.buffer.put word count)
      (fun _ _ => False) (¬ t.buffer.HasRoom) := by
  by_cases h : t.buffer.HasRoom
  · rw [write_of_hasRoom h]
    exact ⟨h, rfl⟩
  · rw [write_of_not_hasRoom h]
    exact h

theorem ends_enlarge (t : Tracked W) (shift : Nat) :
    Ends (enlarge shift t : EStateM.Result (Failure ε) _ _)
      (fun _ t' => t'.buffer = t.buffer.enlarge shift) (fun _ _ => False) False := rfl

/-- Growth of a storage by any shift returns if the shift is one of 64 bits and there can be storage
of what is left of the length. -/
theorem ends_grow (t : Tracked W) (shift : Nat) :
    Ends (grow shift t : EStateM.Result (Failure ε) _ _)
      (fun _ t' => t'.buffer = t.buffer.resize (t.buffer.grownLength shift)) (fun _ _ => False)
      (¬ (shift < 64 ∧ t.buffer.grownLength shift * W.bytes < BitBuffer.maxStorageBytes)) := by
  refine .get_bind (.bind ?_)
  by_cases hfirst : shift < 64 ∧ t.buffer.grownLength shift * W.bytes < UInt64.size
  swap
  · rw [require_of_not hfirst]
    exact fun h => hfirst ⟨h.1, Nat.lt_trans h.2 (by decide)⟩
  rw [require_of hfirst]
  refine .bind (.bind ?_)
  by_cases hbytes : t.buffer.grownLength shift * W.bytes < BitBuffer.maxStorageBytes
  · rw [require_of hbytes]
    rfl
  · rw [require_of_not hbytes]
    exact fun h => hbytes h.2

/-- Where there can be storage of the full length, growth is all that happens. -/
theorem grow_eq_enlarge {t : Tracked W} {shift : Nat} (hsize : 0 < t.buffer.storage.size)
    (h : t.buffer.CanGrow shift) : (grow shift : Action ε W Unit) t = enlarge shift t := by
  have hlength := h.grownLength_eq
  have hbytes : t.buffer.grownLength shift * W.bytes < BitBuffer.maxStorageBytes := by
    rw [hlength]
    exact h
  have hfirst : shift < 64 ∧ t.buffer.grownLength shift * W.bytes < UInt64.size :=
    ⟨h.shift_lt hsize, Nat.lt_trans hbytes (by decide)⟩
  refine (bind_of_ok rfl).trans ((bind_of_ok (require_of hfirst)).trans ?_)
  refine (bind_of_ok rfl).trans ((bind_of_ok (require_of hbytes)).trans ?_)
  have hsizes : t.buffer.grownLength shift * W.bytes = (t.buffer.enlarge shift).size := by
    rw [BitBuffer.size, BitBuffer.size_storage_enlarge, hlength]
  rw [hsizes, hlength]
  rfl

theorem reset_of_le {t : Tracked W} (hp : t.buffer.position ≤ t.buffer.storage.size * W.bits) :
    (reset : Action ε W Unit) t = .ok () { t with buffer := t.buffer.reset } :=
  updateIf_of_fits (BitBuffer.writtenCount_le_size hp)

theorem ends_reset {t : Tracked W} (hp : t.buffer.position ≤ t.buffer.storage.size * W.bits) :
    Ends (reset t : EStateM.Result (Failure ε) _ _)
      (fun _ t' => t'.buffer = t.buffer.reset) (fun _ _ => False) False := by
  rw [reset_of_le hp]
  rfl

theorem ends_append (t : Tracked W) (word : Word W) (count : Nat) :
    Ends (append word count t : EStateM.Result (Failure ε) _ _)
      (fun _ t' => t.buffer.HasRoom ∧ (t'.buffer = t.buffer.put word count ∨
        t'.buffer = (t.buffer.put word count).enlarge 1))
      (fun _ _ => False) (¬ t.buffer.HasRoom) := by
  refine .bind ((ends_write t word count).mono ?_ (fun _ _ h => h) id)
  intro near t' h
  obtain ⟨hr, hb⟩ := h
  cases near with
  | false => exact ⟨hr, .inl hb⟩
  | true =>
    refine (ends_enlarge t' 1).mono (fun _ t'' h => ⟨hr, .inr ?_⟩) (fun _ _ h => h) False.elim
    rw [h, hb]

theorem writeWords_of_hasRoomFor {t : Tracked W} {words : List (Word W)} {count : Nat}
    (hsize : 0 < t.buffer.storage.size) (h : Words.Hold words count ∧ t.buffer.HasRoomFor count) :
    (writeWords words count : Action ε W Bool) t =
      .ok (t.buffer.putWords words count).nearEnd
        { t with buffer := t.buffer.putWords words count } := by
  refine (bind_of_ok (updateIf_of_fits h)).trans (nearEnd_of_pos ?_)
  rwa [BitBuffer.size_storage_putWords]

theorem writeWords_of_not_hasRoomFor {t : Tracked W} {words : List (Word W)} {count : Nat}
    (h : ¬ (Words.Hold words count ∧ t.buffer.HasRoomFor count)) :
    (writeWords words count : Action ε W Bool) t = .error (.violation .outOfBounds) t :=
  bind_of_error (updateIf_of_not_fits h)

theorem ends_writeWords {t : Tracked W} (hsize : 0 < t.buffer.storage.size)
    (words : List (Word W)) (count : Nat) :
    Ends (writeWords words count t : EStateM.Result (Failure ε) _ _)
      (fun _ t' => (Words.Hold words count ∧ t.buffer.HasRoomFor count) ∧
        t'.buffer = t.buffer.putWords words count)
      (fun _ _ => False) (¬ (Words.Hold words count ∧ t.buffer.HasRoomFor count)) := by
  by_cases h : Words.Hold words count ∧ t.buffer.HasRoomFor count
  · rw [writeWords_of_hasRoomFor hsize h]
    exact ⟨h, rfl⟩
  · rw [writeWords_of_not_hasRoomFor h]
    exact h

theorem ends_appendWords {t : Tracked W} (hs : t.buffer.Sound) (words : List (Word W))
    (count : Nat) :
    Ends (appendWords words count t : EStateM.Result (Failure ε) _ _)
      (fun _ t' => (Words.Hold words count ∧ (t.buffer.grownFor count).HasRoomFor count) ∧
        t'.buffer = (t.buffer.grownFor count).putWords words count)
      (fun _ _ => False)
      (¬ (Words.Hold words count ∧ (t.buffer.grownFor count).HasRoomFor count)) :=
  .bind (.discard (ends_writeWords (hs.grownFor count).size_pos words count))

theorem ends_flushWith {t : Tracked W} (hp : t.buffer.position ≤ t.buffer.storage.size * W.bits)
    (emit : List (Word W) → Except ε Unit) :
    Ends (flushWith emit t)
      (fun _ t' => (t.buffer.completeCount = 0 ∧ t'.buffer = t.buffer) ∨
        (t.buffer.completeCount ≠ 0 ∧ emit t.buffer.completeWords = .ok () ∧
          t'.buffer = t.buffer.drain))
      (fun e t' => t.buffer.completeCount ≠ 0 ∧ emit t.buffer.completeWords = .error e ∧
        t'.buffer = t.buffer)
      False := by
  refine .get_bind (.bind ?_)
  rw [require_of (BitBuffer.completeCount_le_size hp)]
  by_cases h0 : t.buffer.completeCount = 0
  · have hf : t.buffer.flushWith emit = .ok (0, t.buffer) := by
      rw [BitBuffer.flushWith, if_pos h0]
      rfl
    rw [hf]
    exact .inl ⟨h0, rfl⟩
  cases he : emit t.buffer.completeWords with
  | error e =>
    have hf : t.buffer.flushWith emit = .error e := by
      rw [BitBuffer.flushWith, if_neg h0, he]
      rfl
    rw [hf]
    exact ⟨h0, rfl, rfl⟩
  | ok =>
    have hf : t.buffer.flushWith emit = .ok (t.buffer.completeCount, t.buffer.drain) := by
      rw [BitBuffer.flushWith, if_neg h0, he]
      rfl
    rw [hf]
    refine .bind ?_
    rw [if_pos h0]
    exact .inr ⟨h0, rfl, rfl⟩

end Tracked

namespace BitBuffer

/-! ## Calls -/

/-- A call on a bit buffer. A flush comes with what its caller does with the complete words. -/
inductive Call (ε : Type) (W : Width)
  | write (word : Word W) (count : Nat)
  | append (word : Word W) (count : Nat)
  | writeWords (words : List (Word W)) (count : Nat)
  | appendWords (words : List (Word W)) (count : Nat)
  | concat (source : BitBuffer W)
  | grow (shift : Nat)
  | reset
  | flushWith (emit : List (Word W) → Except ε Unit)

namespace Call

/-- The words of single writes end where their count says. -/
def Valid : Call ε W → Prop
  | write word count => word.Fits count
  | append word count => word.Fits count
  | _ => True

instance : DecidablePred (Valid (ε := ε) (W := W))
  | write .. => inferInstanceAs (Decidable (_ ∧ _))
  | append .. => inferInstanceAs (Decidable (_ ∧ _))
  | writeWords .. => inferInstanceAs (Decidable True)
  | appendWords .. => inferInstanceAs (Decidable True)
  | concat _ => inferInstanceAs (Decidable True)
  | grow _ => inferInstanceAs (Decidable True)
  | reset => inferInstanceAs (Decidable True)
  | flushWith _ => inferInstanceAs (Decidable True)

/-- Makes the call, whatever its result. -/
def run : Call ε W → Tracked.Action ε W Unit
  | write word count => discard (Tracked.write word count)
  | append word count => Tracked.append word count
  | writeWords words count => discard (Tracked.writeWords words count)
  | appendWords words count => Tracked.appendWords words count
  | concat source => Tracked.concat source
  | grow shift => Tracked.grow shift
  | reset => Tracked.reset
  | flushWith emit => discard (Tracked.flushWith emit)

/-- What the call makes of a plain list of bits when it returns the error `error?`, if any: a flush
that succeeds gives up the bits of the complete words, one that fails gives up nothing. -/
def onBits : Call ε W → (error? : Option ε) → List Bool → List Bool
  | write word count, _, bits => bits ++ word.toBits.take count
  | append word count, _, bits => bits ++ word.toBits.take count
  | writeWords words count, _, bits => bits ++ (Words.toBits words).take count
  | appendWords words count, _, bits => bits ++ (Words.toBits words).take count
  | concat source, _, bits => bits ++ source.content
  | grow _, _, bits => bits
  | reset, _, _ => []
  | flushWith _, none, bits => bits.drop (bits.length / W.bits * W.bits)
  | flushWith _, some _, bits => bits

/-- How the error that the call returns, if any, comes about: a flush of a list of bits that fill a
word returns what becomes of the words that spell its complete part; all else returns no error, and
a flush without a complete word none either, whatever would become of words. -/
def Reports : Call ε W → (error? : Option ε) → List Bool → Prop
  | flushWith emit, error?, bits =>
    if bits.length < W.bits then error? = none
    else ∃ words, Words.toBits words = bits.take (bits.length / W.bits * W.bits) ∧
      emit words = error?.elim (.ok ()) .error
  | _, error?, _ => error? = none

/-- What is left of the length that the call asks for is enough for the bits that are written, in
two words at least. Only growth can drop bits of the length. -/
def Keeps : Call ε W → BitBuffer W → Prop
  | grow shift, b => 2 ≤ b.grownLength shift ∧ b.position ≤ b.grownLength shift * W.bits
  | _, _ => True

instance (call : Call ε W) (b : BitBuffer W) : Decidable (call.Keeps b) :=
  match call with
  | grow _ => inferInstanceAs (Decidable (_ ∧ _))
  | write .. | append .. | writeWords .. | appendWords .. | concat _ | reset | flushWith _ =>
    inferInstanceAs (Decidable True)

/-- What is said of a call that returns: it leaves a sound buffer, does to the content what it does
to a list of bits, and leaves the buffer alone when it fails. -/
structure Spec (call : Call ε W) (b : BitBuffer W) (error? : Option ε) (b' : BitBuffer W) :
    Prop where
  sound : b'.Sound
  content_eq : b'.content = call.onBits error? b.content
  reports : call.Reports error? b.content
  eq_of_error : error? ≠ none → b' = b

private theorem completeCount_eq_zero_iff {b : BitBuffer W} (hs : b.Sound) :
    b.completeCount = 0 ↔ b.content.length < W.bits := by
  rw [completeCount, hs.length_content, Nat.div_eq_zero_iff]
  have := W.bits_pos
  omega

theorem spec_of_returns {call : Call ε W} {t t' : Tracked W} {error? : Option ε}
    (hs : t.buffer.Sound) (hv : call.Valid) (hk : call.Keeps t.buffer)
    (hr : Returns call.run t error? t') : call.Spec t.buffer error? t'.buffer := by
  cases call with
  | write word count =>
    obtain ⟨rfl, -, hroom, hb⟩ := (Ends.discard (Tracked.ends_write t word count)).ok_of_returns hr
    rw [hb]
    exact ⟨hs.put hroom hv, content_put hs hroom hv, rfl, fun h => (h rfl).elim⟩
  | append word count =>
    obtain ⟨rfl, -, hroom, hb⟩ := (Tracked.ends_append t word count).ok_of_returns hr
    have hs' := hs.put hroom hv
    have hc := content_put hs hroom hv
    rcases hb with hb | hb <;> rw [hb]
    · exact ⟨hs', hc, rfl, fun h => (h rfl).elim⟩
    · exact ⟨hs'.enlarge 1, (content_enlarge hs' 1).trans hc, rfl, fun h => (h rfl).elim⟩
  | writeWords words count =>
    obtain ⟨rfl, -, ⟨hw, hroom⟩, hb⟩ :=
      (Ends.discard (Tracked.ends_writeWords hs.size_pos words count)).ok_of_returns hr
    rw [hb]
    exact ⟨hs.putWords hw hroom, content_putWords hs hw hroom, rfl, fun h => (h rfl).elim⟩
  | appendWords words count =>
    obtain ⟨rfl, -, ⟨hw, hroom⟩, hb⟩ := (Tracked.ends_appendWords hs words count).ok_of_returns hr
    rw [hb]
    refine ⟨(hs.grownFor count).putWords hw hroom, ?_, rfl, fun h => (h rfl).elim⟩
    rw [content_putWords (hs.grownFor count) hw hroom, content_grownFor hs]
    rfl
  | concat source =>
    obtain ⟨rfl, -, ⟨hw, hroom⟩, hb⟩ := (Tracked.ends_appendWords hs _ _).ok_of_returns hr
    rw [hb]
    refine ⟨(hs.grownFor _).putWords hw hroom, ?_, rfl, fun h => (h rfl).elim⟩
    rw [content_putWords (hs.grownFor _) hw hroom, content_grownFor hs, take_toBits_writtenWords]
    rfl
  | grow shift =>
    obtain ⟨rfl, -, hb⟩ := (Tracked.ends_grow t shift).ok_of_returns hr
    rw [hb]
    exact ⟨hs.resize hk.1 hk.2, content_resize hs hk.2, rfl, fun h => (h rfl).elim⟩
  | reset =>
    obtain ⟨rfl, -, hb⟩ := (Tracked.ends_reset hs.position_le).ok_of_returns hr
    rw [hb, hs.reset_eq]
    exact ⟨sound_withCapacity _, content_withCapacity _, rfl, fun h => (h rfl).elim⟩
  | flushWith emit =>
    have hlen := completeCount_eq_zero_iff hs
    have hwords := t.buffer.toBits_completeWords
    have hdrain := content_drain hs
    have hcount : t.buffer.content.length / W.bits = t.buffer.completeCount := by
      rw [hs.length_content, completeCount]
    rw [← hcount] at hwords hdrain
    rcases (Ends.discard (Tracked.ends_flushWith hs.position_le emit)).of_returns hr with
      ⟨rfl, -, ⟨h0, hb⟩ | ⟨h0, he, hb⟩⟩ | ⟨e, rfl, h0, he, hb⟩
    · rw [hb]
      refine ⟨hs, ?_, ?_, fun _ => rfl⟩
      · rw [onBits, hcount, h0, Nat.zero_mul, List.drop_zero]
      · rw [Reports, if_pos (hlen.1 h0)]
    · rw [hb]
      refine ⟨hs.drain, hdrain, ?_, fun h => (h rfl).elim⟩
      rw [Reports, if_neg (mt hlen.2 h0)]
      exact ⟨_, hwords, he⟩
    · rw [hb]
      refine ⟨hs, rfl, ?_, fun _ => rfl⟩
      rw [Reports, if_neg (mt hlen.2 h0)]
      exact ⟨_, hwords, he⟩

end Call

/-! ## Histories -/

/-- The calls, made in turn on an empty buffer and returning the errors that go with them, lead to
the state. Each is one that `admits` lets be made of the buffer that it finds. -/
inductive Run (admits : Call ε W → BitBuffer W → Prop) :
    List (Call ε W × Option ε) → Tracked W → Prop
  | start (bytes : Nat) : Run admits [] { buffer := .withCapacity bytes, events := #[] }
  | call {calls : List (Call ε W × Option ε)} {t t' : Tracked W} (h : Run admits calls t)
      (call : Call ε W) (error? : Option ε) (hv : call.Valid) (ha : admits call t.buffer)
      (hr : Returns call.run t error? t') : Run admits (calls ++ [(call, error?)]) t'

namespace Run

variable {calls : List (Call ε W × Option ε)} {t : Tracked W}

theorem sound (h : Run Call.Keeps calls t) : t.buffer.Sound := by
  induction h with
  | start bytes => exact sound_withCapacity bytes
  | call _ _ _ hv hk hr ih => exact (Call.spec_of_returns ih hv hk hr).sound

end Run
end BitBuffer
end BitTransducer
