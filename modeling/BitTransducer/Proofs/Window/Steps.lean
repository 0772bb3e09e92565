import BitTransducer.Window
import BitTransducer.Proofs.Outcome
import BitTransducer.Proofs.Source.Delivery

/-! # What the steps of a window leave

The cells from `start` to `stop` of a window are its lookahead, and a window is `Sound` when they
lie in the buffer as its layout says, so that no subtraction of an observation is cut off at 0. A
refill carries the lookahead to the end of the first block, and what the source delivers comes right
behind it; when the source fails, the carried bytes are left.

Main statements: `ends_refill` and `ends_consume`, which say how the steps may end and what becomes
of the lookahead. -/

namespace BitTransducer

/-- Up to the end of what was laid over them the cells are as before and then as laid. -/
theorem Cells.take_overwrite {α : Type} (cells : Array α) (start : Nat) (values : List α)
    (h : start + values.length ≤ cells.size) :
    (overwrite cells start values).toList.take (start + values.length) =
      cells.toList.take start ++ values := by
  refine List.ext_getElem? fun i => ?_
  have hstart : (cells.toList.take start).length = start := by
    rw [List.length_take, Array.length_toList]
    omega
  rw [List.getElem?_take, Array.getElem?_toList, getElem?_overwrite]
  rcases Nat.lt_or_ge i start with hi | hi
  · rw [if_pos (by omega), if_neg (by omega), List.getElem?_append_left (by omega),
      List.getElem?_take_of_lt hi, Array.getElem?_toList]
  · rw [List.getElem?_append_right (by omega), hstart]
    split
    · rw [if_pos (by omega)]
    · rw [List.getElem?_eq_none (by omega)]

theorem Cells.drop_take_overwrite {α : Type} (cells : Array α) {first start : Nat}
    (values : List α) (hfirst : first ≤ start) (h : start + values.length ≤ cells.size) :
    ((overwrite cells start values).toList.take (start + values.length)).drop first =
      (cells.toList.take start).drop first ++ values := by
  rw [take_overwrite cells start values h, List.drop_append_of_le_length]
  rw [List.length_take, Array.length_toList]
  omega

namespace Window

variable {w w' : Window} {count : Nat}

/-- The lookahead lies in the buffer of two blocks and ends in the second one or right before it. -/
structure Sound (w : Window) : Prop where
  size_eq : w.buffer.size = 2 * w.block
  start_le : w.start ≤ w.stop
  block_le : w.block ≤ w.stop
  stop_le : w.stop ≤ 2 * w.block

theorem Sound.withSource (hs : w.Sound) (source : Source) : Sound { w with source } :=
  ⟨hs.size_eq, hs.start_le, hs.block_le, hs.stop_le⟩

theorem Sound.withEvents (hs : w.Sound) (events : Array Event) : Sound { w with events } :=
  ⟨hs.size_eq, hs.start_le, hs.block_le, hs.stop_le⟩

/-- A window that opens is empty, and its blocks are not. -/
theorem eq_of_openWith {source : Source} {block : Nat} (h : openWith source block = .ok w) :
    0 < block ∧ w = ofBlock source block := by
  unfold openWith at h
  split at h
  · cases h
  · cases h
    exact ⟨Nat.pos_of_ne_zero ‹_›, rfl⟩

theorem sound_ofBlock (source : Source) (block : Nat) : (ofBlock source block).Sound where
  size_eq := Array.size_replicate
  start_le := Nat.le_refl _
  block_le := Nat.le_refl _
  stop_le := by
    dsimp only [ofBlock]
    omega

/-- Where nothing was read, all that is available stands before the second block. -/
theorem Sound.cursor_eq (hs : w.Sound) (h : w.stop = w.block) : w.cursor = -w.available := by
  have := hs.start_le
  rw [cursor, available]
  omega

/-! ## The lookahead -/

theorem lookahead_eq (w : Window) :
    w.lookahead = (w.buffer.toList.take w.stop).drop w.start := by
  have hmin : min (w.start + w.available) w.stop = w.stop := by
    rw [available]
    omega
  rw [lookahead, peek, hmin, Array.toList_extract, List.extract_eq_drop_take']

theorem peek_eq (w : Window) (count : Nat) : w.peek count = w.lookahead.take count := by
  rw [lookahead_eq, List.take_drop, List.take_take, peek, Array.toList_extract,
    List.extract_eq_drop_take']

theorem Sound.length_lookahead (hs : w.Sound) : w.lookahead.length = w.available := by
  have := hs.stop_le
  have := hs.size_eq
  rw [lookahead_eq, List.length_drop, List.length_take, Array.length_toList, available]
  omega

/-- From `w` to `w'` the `bytes` came behind the lookahead, and nothing was consumed. -/
structure Gains (w w' : Window) (bytes : List UInt8) : Prop where
  sound : w'.Sound
  block_eq : w'.block = w.block
  count_eq : w'.count = w.count
  lookahead_eq : w'.lookahead = w.lookahead ++ bytes

theorem Gains.available_eq {bytes : List UInt8} (hs : w.Sound) (h : Gains w w' bytes) :
    w'.available = w.available + bytes.length := by
  rw [← h.sound.length_lookahead, h.lookahead_eq, List.length_append, hs.length_lookahead]

/-! ## Parts of a refill -/

/-- A lookahead that fits into the first block is carried to its end. -/
theorem Sound.carry (hs : w.Sound) (h : w.available ≤ w.block) :
    w.carry.Sound ∧ w.carry.lookahead = w.lookahead := by
  have hlen := hs.length_lookahead
  have hsize := hs.size_eq
  have hstart : w.carry.start = w.block - w.lookahead.length := rfl
  have hstop : w.carry.stop = w.block := rfl
  constructor
  · exact {
      size_eq := (Cells.size_overwrite ..).trans hsize
      start_le := by rw [hstart, hstop]; omega
      block_le := Nat.le_refl _
      stop_le := by rw [hstop]; exact Nat.le_mul_of_pos_left _ Nat.two_pos }
  · have hcarried := Cells.drop_take_overwrite w.buffer w.lookahead
      (Nat.le_refl (w.block - w.lookahead.length)) (by omega)
    rw [Nat.sub_add_cancel (by omega), List.drop_take_self, List.nil_append] at hcarried
    rw [lookahead_eq]
    exact hcarried

/-- What the source delivers into the second block comes behind a carried lookahead. -/
theorem ends_fillBlock (hs : w.Sound) (hstop : w.stop = w.block) :
    Ends (fillBlock w)
      (fun _ w' => ∃ bytes, w.source.fill w.block = .ok bytes w'.source ∧ Gains w w' bytes)
      (fun e w' => ∃ text source, e = .read text ∧ w.source.fill w.block = .error text source ∧
        w' = { w with source })
      False := by
  have hfill := w.source.fill_delivers w.block
  have hsize := hs.size_eq
  unfold fillBlock
  dsimp only
  cases h : w.source.fill w.block with
  | error text source =>
    refine ⟨text, source, rfl, rfl, ?_⟩
    rw [← hstop]
  | ok bytes source =>
    rw [h] at hfill
    have hlen := hfill.2
    let w' : Window := { w with
      source
      buffer := Cells.overwrite w.buffer w.block bytes
      stop := w.block + bytes.length
      events := w.events.push (.refilled (w.block - w.start) bytes.length) }
    have hle : w.start ≤ w.block := hstop ▸ hs.start_le
    have hsound : w'.Sound := {
      size_eq := (Cells.size_overwrite ..).trans hsize
      start_le := Nat.le_trans hle (Nat.le_add_right ..)
      block_le := Nat.le_add_right ..
      stop_le := by
        show w.block + bytes.length ≤ 2 * w.block
        omega }
    refine ⟨bytes, rfl, hsound, rfl, rfl, ?_⟩
    show w'.lookahead = _
    rw [lookahead_eq w', lookahead_eq w, hstop]
    exact Cells.drop_take_overwrite w.buffer bytes hle (by omega)

/-! ## Steps -/

/-- A refill either finds enough or fills the second block once, and what it answers is right about
the window it leaves. -/
theorem ends_refill (hs : w.Sound) (minimum maximum : Nat) :
    Ends (refill minimum maximum w)
      (fun enough w' => enough = decide (minimum ≤ w'.available) ∧
        ((maximum ≤ w.available ∧ w' = w) ∨
          (w.available < maximum ∧
            ∃ bytes, w.source.fill w.block = .ok bytes w'.source ∧ Gains w w' bytes)))
      (fun e w' => w.available < maximum ∧
        (∃ text, e = .read text ∧ w.source.fill w.block = .error text w'.source) ∧
        Gains w w' [] ∧ w'.lastRead = 0 ∧ w'.cursor = -w'.available)
      (maximum < minimum ∨ w.block < maximum) := by
  unfold refill
  refine .get_bind ?_
  rcases Nat.lt_or_ge maximum minimum with horder | horder
  · rw [if_pos horder]
    exact .inl horder
  rw [if_neg (Nat.not_lt.2 horder)]
  rcases Nat.lt_or_ge w.block maximum with hlong | hlong
  · rw [if_pos hlong]
    exact .inr hlong
  rw [if_neg (Nat.not_lt.2 hlong)]
  rcases Nat.lt_or_ge w.available maximum with hneeded | henough
  · rw [if_pos hneeded]
    -- What is available is less than was asked for, so it fits into the first block.
    obtain ⟨hsound, hlookahead⟩ := hs.carry (Nat.le_trans (Nat.le_of_lt hneeded) hlong)
    refine .bind (.bind ((ends_fillBlock hsound rfl).mono ?_ ?_ False.elim))
    · rintro _ w' ⟨bytes, hfill, hgains⟩
      refine ⟨rfl, .inr ⟨hneeded, bytes, hfill, hgains.sound, hgains.block_eq, hgains.count_eq, ?_⟩⟩
      rw [hgains.lookahead_eq, hlookahead]
    · rintro _ _ ⟨text, source, rfl, hfill, rfl⟩
      refine ⟨hneeded, ⟨text, rfl, hfill⟩,
        ⟨hsound.withSource source, rfl, rfl, hlookahead.trans (List.append_nil _).symm⟩,
        Nat.sub_self _, (hsound.withSource source).cursor_eq rfl⟩
  · rw [if_neg (Nat.not_lt.2 henough)]
    exact ⟨rfl, .inl ⟨henough, rfl⟩⟩

theorem ends_consume (hs : w.Sound) (count : Nat) :
    Ends (consume count w)
      (fun _ w' => count ≤ w.available ∧ w'.Sound ∧ w'.source = w.source ∧ w'.block = w.block ∧
        w'.count = w.count + count ∧ w'.lookahead = w.lookahead.drop count)
      (fun _ _ => False)
      (w.available < count) := by
  unfold consume
  refine .get_bind ?_
  rcases Nat.lt_or_ge w.available count with hover | hle
  · rw [if_pos hover]
    exact hover
  · rw [if_neg (Nat.not_lt.2 hle)]
    refine ⟨hle, ?_, rfl, rfl, rfl, ?_⟩
    · have := hs.start_le
      exact {
        size_eq := hs.size_eq
        start_le := show w.start + count ≤ w.stop by
          rw [available] at hle
          omega
        block_le := hs.block_le
        stop_le := hs.stop_le }
    · show Window.lookahead { w with start := w.start + count, count := w.count + count } = _
      rw [lookahead_eq, lookahead_eq, List.drop_drop]

end Window
end BitTransducer
