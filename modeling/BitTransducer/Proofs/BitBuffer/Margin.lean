import BitTransducer.Proofs.BitBuffer.Accumulation
import BitTransducer.Proofs.BitBuffer.WordByWord

/-! # Heeding the near-end signal

A single write that moves the cursor into the last word signals that, since the next one may find no
room there. Owners who heed every signal at once, with a flush or with growth, never run out of
room, whatever else they do in between: `Heeded` are the states that they reach. Appends of many
words need no such care, as they make room for themselves wherever the cursor is.

One care is left to the owners: they must not ask for growth to a size that there cannot be
(`Call.CanGrow`). That either breaks the contract or, with bits of the new length dropped, leaves
less room than before (`no_margin_after_growth`).

Each call is compared with the same one made cell by cell (`Call.signalChecked`), to show that it
neither reaches for a cell that is not there nor shifts by a whole word.

Main statements: `Call.signalChecked_eq`, `Call.ends_signal` (one call), `Heeded.signals` (a
sequence of them) and `keeps_margin`. -/

namespace BitTransducer

variable {W : Width} {ε : Type} {t : Tracked W}

namespace Tracked

/-! ## Calls cell by cell -/

def appendChecked (word : Word W) (count : Nat) : Action ε W Unit := do
  if ← writeChecked word count then enlarge 1

def appendWordsChecked (words : List (Word W)) (count : Nat) : Action ε W Unit := do
  let before := (← get).buffer.size
  update (·.grownFor count)
  note (Event.ofSizes before (← get).buffer.size)
  discard (writeWordsChecked words count)

/-- Appends everything written to `source`, whose storage is given as a whole. -/
def concatChecked (source : BitBuffer W) : Action ε W Unit :=
  appendWordsChecked source.storage.toList source.position

def resetChecked : Action ε W Unit := updateBy (·.resetChecked?)

def flushWithChecked (emit : List (Word W) → Except ε Unit) : Action ε W Nat := do
  match ← orBreak ((← get).buffer.flushWithChecked? emit) with
  | .error e => throw (.error e)
  | .ok (words, buffer) =>
    update fun _ => buffer
    if words ≠ 0 then note [.flushed words buffer.position]
    return words

theorem appendChecked_eq (word : Word W) (count : Nat) :
    (appendChecked word count : Action ε W Unit) = append word count := by
  rw [appendChecked, append, writeChecked_eq]

section

variable {words : List (Word W)} {count : Nat}

theorem appendWordsChecked_of_hold (hsize : 2 ≤ t.buffer.storage.size)
    (hw : Words.Hold words count) :
    (appendWordsChecked words count : Action ε W Unit) t =
      .ok () { t.grownFor count with
        buffer := (t.buffer.grownFor count).putWords words count } := by
  obtain ⟨⟨-, hspare⟩, -⟩ := BitBuffer.isLeast_grownFor hsize count
  have hp : (t.buffer.grownFor count).position ≤
      (t.buffer.grownFor count).storage.size * W.bits := by
    rw [Nat.sub_mul, Nat.one_mul] at hspare
    rw [BitBuffer.position_grownFor]
    omega
  have hpos := BitBuffer.size_grownFor_pos hsize count
  exact discard_of_ok ((writesWords_writeWordsChecked (t := t.grownFor count) hpos hp words
    count).eq_ok ⟨hw, BitBuffer.hasRoomFor_grownFor hsize count⟩)

theorem appendWordsChecked_eq (hsize : 2 ≤ t.buffer.storage.size) (hw : Words.Hold words count) :
    (appendWordsChecked words count : Action ε W Unit) t = appendWords words count t :=
  (appendWordsChecked_of_hold hsize hw).trans (appendWords_of_hold hsize hw).symm

theorem concatChecked_eq (hsize : 2 ≤ t.buffer.storage.size) {source : BitBuffer W}
    (hp : source.position ≤ source.storage.size * W.bits) :
    (concatChecked source : Action ε W Unit) t = concat source t := by
  rw [concatChecked, concat, appendWordsChecked_of_hold hsize hp,
    appendWords_of_hold hsize (BitBuffer.hold_writtenWords_iff.2 hp),
    BitBuffer.putWords_writtenWords]

end

theorem resetChecked_eq (hp : t.buffer.position ≤ t.buffer.storage.size * W.bits) :
    (resetChecked : Action ε W Unit) t = reset t :=
  (updateBy_of_some (BitBuffer.resetChecked?_eq hp)).trans (reset_of_le hp).symm

theorem flushWithChecked_eq (hp : t.buffer.position ≤ t.buffer.storage.size * W.bits)
    (emit : List (Word W) → Except ε Unit) : flushWithChecked emit t = flushWith emit t := by
  have hflush := BitBuffer.flushWithChecked?_eq hp emit
  have hcount := BitBuffer.completeCount_le_size hp
  refine (bind_of_ok rfl).trans (Eq.trans ?_ ((bind_of_ok rfl).trans
    (bind_of_ok (require_of hcount))).symm)
  rw [hflush]
  rfl

end Tracked

namespace BitBuffer

variable {b : BitBuffer W}

/-! ## What gives room -/

/-- The buffer is sound, and its cursor is near the end if the signal says so. -/
structure Signals (b : BitBuffer W) (signal : Bool) : Prop where
  sound : b.Sound
  nearEnd_eq : b.nearEnd = signal

theorem Sound.signals_of_lt (hs : b.Sound) (h : b.position < W.bits) : b.Signals false :=
  ⟨hs, hs.nearEnd_eq_false h⟩

/-- A flush frees the last word, unless what the words are handed to fails. -/
theorem ends_flushWith_margin (hs : t.buffer.Sound) {emit : List (Word W) → Except ε Unit}
    (h : t.buffer.nearEnd = false ∨ emit t.buffer.completeWords = .ok ()) :
    Ends (Tracked.flushWith emit t) (fun _ t' => t'.buffer.Signals false)
      (fun _ t' => t'.buffer.Signals false) False := by
  refine (Tracked.ends_flushWith hs.position_le emit).mono ?_ ?_ id
  · rintro _ t' (⟨h0, hb⟩ | ⟨-, -, hb⟩) <;> rw [hb]
    · exact hs.signals_of_lt ((Nat.div_eq_zero_iff_lt W.bits_pos).1 h0)
    · refine hs.drain.signals_of_lt ?_
      rw [position_drain]
      exact t.buffer.offset_lt
  · rintro e t' ⟨-, he, hb⟩
    rw [hb]
    refine ⟨hs, h.resolve_right fun h => ?_⟩
    cases he.symm.trans h

namespace Call

/-! ## Calls that heed the signal -/

/-- Makes the call cell by cell. -/
def runChecked : Call ε W → Tracked.Action ε W Unit
  | write word count => discard (Tracked.writeChecked word count)
  | append word count => Tracked.appendChecked word count
  | writeWords words count => discard (Tracked.writeWordsChecked words count)
  | appendWords words count => Tracked.appendWordsChecked words count
  | concat source => Tracked.concatChecked source
  | grow shift => Tracked.grow shift
  | reset => Tracked.resetChecked
  | flushWith emit => discard (Tracked.flushWithChecked emit)

/-- Makes the call; whether it signals that the cursor is near the end, as only single writes do. -/
def signal : Call ε W → Tracked.Action ε W Bool
  | write word count => Tracked.write word count
  | call => do
    call.run
    return false

/-- Makes the call like `signal` does, and cell by cell. -/
def signalChecked : Call ε W → Tracked.Action ε W Bool
  | write word count => Tracked.writeChecked word count
  | call => do
    call.runChecked
    return false

/-- The call may be made while no signal is to be heeded: words are such that all bits asked for are
theirs. Words are not written without making room first. -/
def Admitted : Call ε W → Prop
  | write word count => word.Fits count
  | writeWords .. => False
  | grow _ => True
  | reset => True
  | flushWith _ => True
  | call => call.Appends

/-- The call is an answer to a signal: the storage doubles at least, or the complete words are
handed over without an error. -/
def Answers : Call ε W → BitBuffer W → Prop
  | grow shift, _ => 1 ≤ shift
  | flushWith emit, b => emit b.completeWords = .ok ()
  | _, _ => False

/-- The call heeds the signal that the last one left. -/
def Heeds (call : Call ε W) (signal : Bool) (b : BitBuffer W) : Prop :=
  if signal then call.Answers b else call.Admitted

/-- There can be storage of the size that the call asks for. -/
def CanGrow : Call ε W → BitBuffer W → Prop
  | grow shift, b => b.CanGrow shift
  | _, _ => True

theorem Heeds.admitted {call : Call ε W} {signal : Bool} (h : call.Heeds signal b) :
    call.Admitted := by
  cases signal with
  | false => exact h
  | true =>
    cases call with
    | grow _ | flushWith _ => trivial
    | _ => exact False.elim h

/-- To make a call cell by cell makes no difference. -/
theorem runChecked_eq {call : Call ε W} (hs : t.buffer.Sound) (ha : call.Admitted) :
    call.runChecked t = call.run t := by
  cases call with
  | write word count => rw [runChecked, Tracked.writeChecked_eq, run]
  | append word count => rw [runChecked, Tracked.appendChecked_eq, run]
  | writeWords words count => exact False.elim ha
  | appendWords words count => exact Tracked.appendWordsChecked_eq hs.two_le_size ha
  | concat source => exact Tracked.concatChecked_eq hs.two_le_size ha
  | grow shift => rfl
  | reset => exact Tracked.resetChecked_eq hs.position_le
  | flushWith emit => exact discard_congr (Tracked.flushWithChecked_eq hs.position_le emit)

theorem signalChecked_eq {call : Call ε W} (hs : t.buffer.Sound) (ha : call.Admitted) :
    call.signalChecked t = call.signal t := by
  cases call with
  | write word count => rw [signalChecked, Tracked.writeChecked_eq, signal]
  | _ => exact bind_congr_left (runChecked_eq hs ha)

/-- A call that heeds the signal returns, and the cursor is near the end then if it says so. -/
theorem ends_signal {call : Call ε W} {signal : Bool} (h : t.buffer.Signals signal)
    (hc : call.Heeds signal t.buffer) (hg : call.CanGrow t.buffer) :
    Ends (call.signal t) (fun signal' t' => t'.buffer.Signals signal')
      (fun _ t' => t'.buffer.Signals false) False := by
  obtain ⟨hs, hn⟩ := h
  have hnone {x : Tracked.Action ε W Unit}
      (h : Ends (x t) (fun _ t' => t'.buffer.Signals false)
        (fun _ t' => t'.buffer.Signals false) False) :
      Ends ((do x; return false : Tracked.Action ε W Bool) t)
        (fun signal' t' => t'.buffer.Signals signal')
        (fun _ t' => t'.buffer.Signals false) False := .bind h
  have hgives : t.buffer.nearEnd = false ∨ call.Answers t.buffer := by
    cases signal with
    | false => exact .inl hn
    | true => exact .inr hc
  have happend (hn : t.buffer.nearEnd = false) (ha : call.Appends) :
      Ends (call.run t) (fun _ t' => t'.buffer.Signals false)
        (fun _ t' => t'.buffer.Signals false) False := by
    obtain ⟨t', hrun, hsnug, -⟩ := exists_snug (ε := ε) ha hs hn
    rw [hrun]
    exact ⟨hsnug.sound, hsnug.nearEnd_eq_false⟩
  cases call with
  | write word count =>
    have hr := hasRoom_of_nearEnd (hgives.resolve_right False.elim)
    rw [Call.signal, Tracked.write_of_hasRoom hr]
    exact ⟨hs.put hr hc.admitted, rfl⟩
  | append word count => exact hnone (happend (hgives.resolve_right False.elim) hc.admitted)
  | appendWords words count => exact hnone (happend (hgives.resolve_right False.elim) hc.admitted)
  | concat source => exact hnone (happend (hgives.resolve_right False.elim) hc.admitted)
  | writeWords words count => exact False.elim hc.admitted
  | grow shift =>
    have hrun : (grow shift : Call ε W).run t = Tracked.enlarge shift t :=
      Tracked.grow_eq_enlarge hs.size_pos hg
    refine hnone ?_
    rw [hrun]
    refine (Tracked.ends_enlarge t shift).mono ?_ (fun _ _ => False.elim) id
    rintro _ t' hb
    rw [hb]
    exact ⟨hs.enlarge shift, hs.nearEnd_enlarge hgives⟩
  | reset =>
    refine hnone ((Tracked.ends_reset hs.position_le).mono ?_ (fun _ _ => False.elim) id)
    rintro _ t' hb
    rw [hb, hs.reset_eq]
    exact (sound_withCapacity _).signals_of_lt W.bits_pos
  | flushWith emit => exact hnone (.discard (ends_flushWith_margin hs hgives))

end Call

/-- The states that calls lead to when every signal is heeded at once and no storage is asked for
that there cannot be, with the signal of the last call. A call that returns an error leaves none. -/
inductive Heeded (ε : Type) : Bool → Tracked W → Prop
  | start (bytes : Nat) : Heeded ε false (.ofCapacity bytes)
  | returned {signal signal' : Bool} {t t' : Tracked W} (h : Heeded ε signal t) (call : Call ε W)
      (hc : call.Heeds signal t.buffer) (hg : call.CanGrow t.buffer)
      (hr : call.signal t = .ok signal' t') : Heeded ε signal' t'
  | failed {signal : Bool} {t t' : Tracked W} {e : ε} (h : Heeded ε signal t) (call : Call ε W)
      (hc : call.Heeds signal t.buffer) (hg : call.CanGrow t.buffer)
      (hr : call.signal t = .error (.error e) t') : Heeded ε false t'

theorem Heeded.signals {signal : Bool} (h : Heeded ε signal t) : t.buffer.Signals signal := by
  induction h with
  | start bytes => exact (sound_withCapacity bytes).signals_of_lt W.bits_pos
  | returned _ call hc hg hr ih =>
    have hend := Call.ends_signal ih hc hg
    rw [hr] at hend
    exact hend
  | failed _ call hc hg hr ih =>
    have hend := Call.ends_signal ih hc hg
    rw [hr] at hend
    exact hend

/-- What is appended after growth leaves a word free. -/
theorem nearEnd_putWords_grownFor (hsize : 2 ≤ b.storage.size) {words : List (Word W)}
    {count : Nat} (hw : Words.Hold words count) :
    ((b.grownFor count).putWords words count).nearEnd = false := by
  obtain ⟨⟨-, hspare⟩, -⟩ := isLeast_grownFor hsize count
  rw [nearEnd_eq_false_iff, position_putWords _ _ _ hw, size_storage_putWords, position_grownFor]
  exact hspare

/-- Where every signal is heeded and no storage is asked for that there cannot be, all further such
calls return, without reaching for cells that are not there and without shifting by a whole word,
and the cursor is near the end only while a signal is to be heeded. Appends of many words return
from every buffer of two words at least, even a full one, and leave a word free. -/
theorem keeps_margin :
    (∀ (signal : Bool) (t : Tracked W), Heeded ε signal t →
      (t.buffer.Sound ∧ t.buffer.nearEnd = signal) ∧
        ∀ call : Call ε W, call.Heeds signal t.buffer → call.CanGrow t.buffer →
          call.signalChecked t = call.signal t ∧ ∃ error? t', Returns call.signal t error? t') ∧
      ∀ t : Tracked W, 2 ≤ t.buffer.storage.size →
        (∀ words count, Words.Hold words count →
          ∃ t', (Tracked.appendWords words count : Tracked.Action ε W Unit) t = .ok () t' ∧
            (Tracked.appendWordsChecked words count : Tracked.Action ε W Unit) t = .ok () t' ∧
            t'.buffer.nearEnd = false) ∧
        ∀ source : BitBuffer W, source.position ≤ source.storage.size * W.bits →
          ∃ t', (Tracked.concat source : Tracked.Action ε W Unit) t = .ok () t' ∧
            (Tracked.concatChecked source : Tracked.Action ε W Unit) t = .ok () t' ∧
            t'.buffer.nearEnd = false := by
  refine ⟨fun signal t h => ?_, fun t hsize => ⟨fun words count hw => ?_, fun source hp => ?_⟩⟩
  · have hsignals := h.signals
    refine ⟨⟨hsignals.sound, hsignals.nearEnd_eq⟩, fun call hc hg => ⟨?_, ?_⟩⟩
    · exact Call.signalChecked_eq hsignals.sound hc.admitted
    · exact (Call.ends_signal hsignals hc hg).exists_returns not_false
  · exact ⟨_, Tracked.appendWords_of_hold hsize hw, Tracked.appendWordsChecked_of_hold hsize hw,
      nearEnd_putWords_grownFor hsize hw⟩
  · have hw := hold_writtenWords_iff.2 hp
    have hrun : (Tracked.concat source : Tracked.Action ε W Unit) t = _ :=
      Tracked.appendWords_of_hold hsize hw
    exact ⟨_, hrun, (Tracked.concatChecked_eq hsize hp).trans hrun,
      nearEnd_putWords_grownFor hsize hw⟩

/-- A word that fills the first of two words leaves a signal that a flush heeds; a buffer of two
words that is full takes another one. -/
theorem keeps_margin_of_two_words :
    (∃ t : Tracked .w32, Heeded String true t ∧ t.buffer.nearEnd = true ∧
      ∃ error? t', Returns (Call.signal (ε := String) (.flushWith fun _ => .ok ())) t error? t') ∧
      ∃ t : Tracked .w32, t.buffer.position = t.buffer.storage.size * 32 ∧
        ∃ t', (Tracked.appendWords [0xffffffff] 32 : Tracked.Action String .w32 Unit) t =
          .ok () t' ∧ t'.buffer.nearEnd = false := by
  have hstart : Heeded (W := .w32) String false _ := .start 0
  have hword : Heeded (W := .w32) String true _ :=
    hstart.returned (.write 0xdeadbeef 32) (show Word.Fits _ _ by decide) trivial rfl
  let full : Tracked .w32 := { buffer := { storage := #[1, 1], position := 64 }, events := #[] }
  obtain ⟨hheeded, happends⟩ := keeps_margin (W := .w32) (ε := String)
  obtain ⟨⟨-, hn⟩, hcalls⟩ := hheeded true _ hword
  obtain ⟨t', hrun, -, hn'⟩ := (happends full (by decide)).1 [0xffffffff] 32 (by decide)
  have hflush := (hcalls (.flushWith fun _ => .ok ()) rfl trivial).2
  exact ⟨⟨_, hword, hn, hflush⟩, full, by decide, t', hrun, hn'⟩

/-- The same signal is heeded by growth too, but a shift by 62 asks for storage that there cannot
be, and one by 63 leaves no storage: it cannot be said whether the cursor is near the end then, and
the next write finds no room. -/
theorem no_margin_after_growth :
    ∃ t : Tracked .w32, Heeded String true t ∧
      ((Call.grow 62 : Call String .w32).Heeds true t.buffer ∧
        ∃ t', (Call.grow 62 : Call String .w32).signal t = .error (.violation .overflow) t') ∧
      (Call.grow 63 : Call String .w32).Heeds true t.buffer ∧
        ∃ t', (Call.grow 63 : Call String .w32).signal t = .ok false t' ∧
          t'.buffer.storage.size = 0 ∧
          (Tracked.nearEnd : Tracked.Action String .w32 Bool) t' =
            .error (.violation .overflow) t' ∧
          (Call.write 0xffffffff 32 : Call String .w32).signal t' =
            .error (.violation .outOfBounds) t' := by
  have hstart : Heeded (W := .w32) String false _ := .start 0
  have hword : Heeded (W := .w32) String true _ :=
    hstart.returned (.write 0xdeadbeef 32) (show Word.Fits _ _ by decide) trivial rfl
  exact ⟨_, hword, ⟨show 1 ≤ 62 by decide, _, rfl⟩, show 1 ≤ 63 by decide, _, rfl, rfl, rfl, rfl⟩

end BitBuffer
end BitTransducer
