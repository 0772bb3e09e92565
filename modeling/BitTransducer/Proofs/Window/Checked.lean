import BitTransducer.Proofs.BitBuffer.Checked
import BitTransducer.Proofs.Window.Calls

/-! # Windows cell by cell

What the steps of a window do to its buffer, with nothing taken for granted: the distance between
two places has to be none or more, and the cells that are moved, read into or looked at have to
exist. A `Metered` window is worked on in this way, and it counts the bytes that are copied from one
place of the buffer to another.

What a read brings is in the cells at once, also when the next read fails and the window has
nothing of it. So a metered window `Agrees` with the window itself up to the end of what is
available, and not on the cells behind it.

Main statements: `fillFrom_of_fill` (the loop of reads), `Agrees.observes`, `Agrees.carry` and
`Agrees.fillBlock`. -/

namespace BitTransducer

/-- How far `stop` is behind `start`, unless it is before it. -/
def distance? (start stop : Nat) : Option Nat :=
  if start ≤ stop then some (stop - start) else none

namespace Cells

variable {α : Type}

/-- The cells from `start` to `stop`, all of which exist. -/
def between? (cells : Array α) (start stop : Nat) : Option (List α) :=
  if start ≤ stop ∧ stop ≤ cells.size then some (cells.extract start stop).toList else none

theorem overwrite?_eq {cells : Array α} {start : Nat} {values : List α}
    (h : start + values.length ≤ cells.size) :
    overwrite? cells start values = some (overwrite cells start values) := if_pos h

/-- What is laid over cells leaves those before it. -/
theorem take_start_overwrite (cells : Array α) {start : Nat} {values : List α}
    (h : start + values.length ≤ cells.size) :
    (overwrite cells start values).toList.take start = cells.toList.take start := by
  have htake := congrArg (List.take start) (take_overwrite cells start values h)
  rw [List.take_take, Nat.min_eq_left (Nat.le_add_right ..)] at htake
  rw [htake, List.take_append_of_le_length, List.take_take, Nat.min_self]
  rw [List.length_take, Array.length_toList]
  omega

/-- What is laid over cells that agree up to it makes them agree up to its end. -/
theorem take_overwrite_congr {cells cells' : Array α} {start stop : Nat} (values : List α)
    (hsize : cells.size = cells'.size) (h : cells.toList.take stop = cells'.toList.take stop)
    (hle : start ≤ stop) (hfits : start + values.length ≤ cells.size) :
    (overwrite cells start values).toList.take (start + values.length) =
      (overwrite cells' start values).toList.take (start + values.length) := by
  have hbefore := congrArg (List.take start) h
  rw [List.take_take, List.take_take, Nat.min_eq_left hle] at hbefore
  rw [take_overwrite cells start values hfits, take_overwrite cells' start values (hsize ▸ hfits),
    hbefore]

end Cells

namespace Window

/-- A window that is worked on cell by cell. -/
structure Metered extends Window where
  /-- Bytes copied within the buffer so far. -/
  copied : Nat

variable {w w' : Window} {m m' : Metered} {error? : Option StreamError}

def availableChecked? (w : Window) : Option Nat := distance? w.start w.stop

def lastReadChecked? (w : Window) : Option Nat := distance? w.block w.stop

def lookaheadChecked? (w : Window) : Option (List UInt8) := Cells.between? w.buffer w.start w.stop

namespace Metered

abbrev Action (α : Type) := EStateM (Failure StreamError) Metered α

/-- Copies the cells from `start` to `stop` to the place `target`. -/
def copyWithin (start stop target : Nat) : Action Unit := do
  let m ← get
  let values ← orBreak (Cells.between? m.buffer start stop)
  let buffer ← orBreak (Cells.overwrite? m.buffer target values)
  set { m with buffer, copied := m.copied + values.length }

/-- Reads into the second block, which has `room` cells of which `filled` are, until it is full or a
read brings nothing; how many cells are filled then. -/
def fillFrom (room filled : Nat) (m : Metered) :
    EStateM.Result (Failure StreamError) Metered Nat :=
  if filled < room then
    match _h : m.source.read (room - filled) with
    | (.bytes [], source) => .ok filled { m with source }
    | (.bytes (byte :: bytes), source) =>
      match Cells.overwrite? m.buffer (m.block + filled) (byte :: bytes) with
      | some buffer => fillFrom room (filled + (bytes.length + 1)) { m with source, buffer }
      | none => .error (.violation .outOfBounds) { m with source }
    | (.interrupted, source) => fillFrom room filled { m with source }
    | (.failure text, source) => .error (.error (.read text)) { m with source }
  else .ok filled m
termination_by room - filled + m.source.arrivals.length
decreasing_by
  · have := Source.arrivals_read_le _h
    omega
  · have := Source.arrivals_read_lt _h
    omega

/-- Fills the second block behind the `carried` bytes. -/
def fillBlockChecked (carried : Nat) : Action Unit := do
  let m ← get
  let room ← orBreak (distance? m.block m.buffer.size)
  let read ← fillFrom room 0
  modify fun m => { m with
    stop := m.block + read
    events := m.events.push (.refilled carried read) }

/-- Carries the `available` bytes to the end of the first block. -/
def carryChecked (available : Nat) : Action Unit := do
  let m ← get
  let target ← orBreak (distance? available m.block)
  copyWithin m.start m.stop target
  modify fun m => { m with start := target, stop := m.block }

def refillChecked (minimum maximum : Nat) : Action Bool := do
  let m ← get
  if maximum < minimum then throw (.violation (.lookaheadOrder minimum maximum))
  if m.block < maximum then throw (.violation (.lookaheadTooLong maximum m.block))
  let available ← orBreak m.availableChecked?
  if available < maximum then
    carryChecked available
    fillBlockChecked available
  let available ← orBreak (← get).availableChecked?
  return minimum ≤ available

def consumeChecked (count : Nat) : Action Unit := do
  let m ← get
  let available ← orBreak m.availableChecked?
  if available < count then throw (.violation (.overconsumed count available))
  set { m with start := m.start + count, count := m.count + count }

/-- The metered window has what the window has, but for the cells from `stop` on. -/
structure Agrees (m : Metered) (w : Window) : Prop where
  toWindow_eq : m.toWindow = { w with buffer := m.buffer }
  size_eq : m.buffer.size = w.buffer.size
  take_eq : m.buffer.toList.take w.stop = w.buffer.toList.take w.stop

/-- All that the metered window shows is what the window shows. -/
structure Observes (m : Metered) (w : Window) : Prop where
  available_eq : m.availableChecked? = some w.available
  cursor_eq : m.cursor = w.cursor
  lastRead_eq : m.lastReadChecked? = some w.lastRead
  lookahead_eq : m.lookaheadChecked? = some w.lookahead

theorem Agrees.refl (w : Window) (copied : Nat) : Agrees ⟨w, copied⟩ w := ⟨rfl, rfl, rfl⟩

/-! ## Filling -/

/-- What there is once the `bytes` came into the second block behind the `filled` ones. -/
def received (m : Metered) (filled : Nat) (bytes : List UInt8) (source : Source) : Metered :=
  { m with source, buffer := Cells.overwrite m.buffer (m.block + filled) bytes }

theorem received_append (m : Metered) (filled : Nat) (bytes more : List UInt8) (s t : Source) :
    (m.received filled bytes s).received (filled + bytes.length) more t =
      m.received filled (bytes ++ more) t := by
  simp only [received, Cells.overwrite_append, Nat.add_assoc]

@[simp] theorem size_received (m : Metered) (filled : Nat) (bytes : List UInt8) (s : Source) :
    (m.received filled bytes s).buffer.size = m.buffer.size := Cells.size_overwrite ..

variable {room filled left : Nat}

theorem fillFrom_eq (hleft : filled + left = room) (h0 : left ≠ 0) :
    fillFrom room filled m =
      match m.source.read left with
      | (.bytes [], source) => .ok filled { m with source }
      | (.bytes (byte :: bytes), source) =>
        match Cells.overwrite? m.buffer (m.block + filled) (byte :: bytes) with
        | some buffer => fillFrom room (filled + (bytes.length + 1)) { m with source, buffer }
        | none => .error (.violation .outOfBounds) { m with source }
      | (.interrupted, source) => fillFrom room filled { m with source }
      | (.failure text, source) => .error (.error (.read text)) { m with source } := by
  obtain rfl : left = room - filled := by omega
  rw [fillFrom, if_pos (by omega)]
  split <;> rename_i h <;> rw [h]

/-- A read that brings bytes finds the cells that it fills. -/
theorem fillFrom_of_read {byte : UInt8} {bytes : List UInt8} {t : Source}
    (hleft : filled + left = room) (h0 : left ≠ 0) (hsize : m.block + room ≤ m.buffer.size)
    (h : m.source.read left = (.bytes (byte :: bytes), t)) :
    fillFrom room filled m =
      fillFrom room (filled + (byte :: bytes).length) (m.received filled (byte :: bytes) t) := by
  have hlen := Source.length_le_of_read h
  have hfits : m.block + filled + (byte :: bytes).length ≤ m.buffer.size := by omega
  rw [fillFrom_eq hleft h0, h]
  simp only [Cells.overwrite?_eq hfits]
  rfl

/-- The second block takes what the source delivers, also what it delivers before a read fails. -/
theorem fillFrom_of_fill (m : Metered) (source : Source) (filled : Nat)
    (hleft : filled + left = room) (hsource : m.source = source)
    (hsize : m.block + room ≤ m.buffer.size) :
    match source.fill left with
    | .ok bytes t =>
      fillFrom room filled m = .ok (filled + bytes.length) (m.received filled bytes t)
    | .error text t => ∃ lost, source.Delivers lost t ∧ lost.length ≤ left ∧
      fillFrom room filled m = .error (.error (.read text)) (m.received filled lost t) := by
  fun_induction Source.fill left source generalizing m filled with
  | case1 s =>
    subst hsource
    rw [fillFrom, if_neg (by omega)]
    rfl
  | case2 left s h0 t h =>
    subst hsource
    rw [fillFrom_eq hleft h0, h]
    rfl
  | case3 left s h0 byte bytes t h more u hmore ih =>
    subst hsource
    have hlen : bytes.length + 1 ≤ left := Source.length_le_of_read h
    have hnext := ih (m.received filled (byte :: bytes) t) (filled + (byte :: bytes).length)
      (by rw [List.length_cons]; omega) rfl (by rwa [size_received])
    rw [hmore] at hnext
    refine ((fillFrom_of_read hleft h0 hsize h).trans hnext).trans ?_
    rw [received_append, List.length_append, Nat.add_assoc]
  | case4 left s h0 byte bytes t h text u hmore ih =>
    subst hsource
    have hlen : bytes.length + 1 ≤ left := Source.length_le_of_read h
    have hnext := ih (m.received filled (byte :: bytes) t) (filled + (byte :: bytes).length)
      (by rw [List.length_cons]; omega) rfl (by rwa [size_received])
    rw [hmore] at hnext
    obtain ⟨lost, hlost, hle, hnext⟩ := hnext
    rw [received_append] at hnext
    rw [fillFrom_of_read hleft h0 hsize h]
    refine ⟨byte :: bytes ++ lost, .read h hlost, ?_, hnext⟩
    rw [List.length_append, List.length_cons]
    omega
  | case5 left s h0 t h ih =>
    subst hsource
    rw [fillFrom_eq hleft h0, h]
    have hnext := ih { m with source := t } filled hleft rfl hsize
    cases hfill : t.fill left with
    | ok bytes u =>
      rw [hfill] at hnext
      exact hnext
    | error text u =>
      rw [hfill] at hnext
      obtain ⟨lost, hlost, hle, hnext⟩ := hnext
      exact ⟨lost, .read h hlost, hle, hnext⟩
  | case6 left s h0 text t h =>
    subst hsource
    rw [fillFrom_eq hleft h0, h]
    exact ⟨[], .read h (.refl t), Nat.zero_le _, rfl⟩

theorem copyWithin_eq {start stop target : Nat} {values : List UInt8}
    (h : Cells.between? m.buffer start stop = some values)
    (hfits : target + values.length ≤ m.buffer.size) :
    copyWithin start stop target m = .ok ()
      { m with
        buffer := Cells.overwrite m.buffer target values
        copied := m.copied + values.length } :=
  (orBreak_bind h).trans (orBreak_bind (Cells.overwrite?_eq hfits))

/-! ## Agreement -/

namespace Agrees

theorem exists_eq (h : Agrees m w) : ∃ buffer copied, m = ⟨{ w with buffer }, copied⟩ ∧
    buffer.size = w.buffer.size ∧ buffer.toList.take w.stop = w.buffer.toList.take w.stop :=
  ⟨m.buffer, m.copied, congrArg (Metered.mk · m.copied) h.toWindow_eq, h.size_eq, h.take_eq⟩

theorem source_eq (h : Agrees m w) : m.source = w.source := by
  obtain ⟨buffer, copied, rfl, -, -⟩ := h.exists_eq
  rfl

theorem block_eq (h : Agrees m w) : m.block = w.block := by
  obtain ⟨buffer, copied, rfl, -, -⟩ := h.exists_eq
  rfl

theorem available_eq (h : Agrees m w) : m.available = w.available := by
  obtain ⟨buffer, copied, rfl, -, -⟩ := h.exists_eq
  rfl

/-- No observation takes a distance that is not there or looks past the buffer. -/
theorem observes (h : Agrees m w) (hs : w.Sound) : Observes m w := by
  obtain ⟨buffer, copied, rfl, hsize, htake⟩ := h.exists_eq
  have hstop : w.stop ≤ buffer.size := by
    rw [hsize, hs.size_eq]
    exact hs.stop_le
  exact {
    available_eq := if_pos hs.start_le
    lastRead_eq := if_pos hs.block_le
    cursor_eq := rfl
    lookahead_eq := by
      refine (if_pos ⟨hs.start_le, hstop⟩).trans (congrArg some ?_)
      rw [lookahead_eq, ← htake, Array.toList_extract, List.extract_eq_drop_take'] }

/-- The lookahead fits into the first block, to the end of which it is copied. -/
theorem carry (h : Agrees m w) (hs : w.Sound) (hle : w.available ≤ w.block) :
    ∃ m', carryChecked w.available m = .ok () m' ∧ Agrees m' w.carry ∧
      m'.copied = m.copied + w.available ∧ m'.source = m.source := by
  have hlen := hs.length_lookahead
  have hlookahead := (h.observes hs).lookahead_eq
  obtain ⟨buffer, copied, rfl, hsize, htake⟩ := h.exists_eq
  have htarget : w.block - w.available + w.lookahead.length = w.block := by omega
  have hfits : w.block - w.available + w.lookahead.length ≤ buffer.size := by
    rw [htarget, hsize, hs.size_eq]
    omega
  have hcarry : w.carry = { w with
      buffer := Cells.overwrite w.buffer (w.block - w.available) w.lookahead
      start := w.block - w.available
      stop := w.block } := by
    rw [Window.carry, hlen]
  refine ⟨⟨{ w with
      buffer := Cells.overwrite buffer (w.block - w.available) w.lookahead
      start := w.block - w.available
      stop := w.block }, copied + w.lookahead.length⟩, ?_, ?_, congrArg (copied + ·) hlen, rfl⟩
  · exact (orBreak_bind (if_pos hle)).trans (bind_of_ok (copyWithin_eq hlookahead hfits))
  · rw [hcarry]
    refine ⟨rfl, ?_, ?_⟩
    · rw [Cells.size_overwrite, Cells.size_overwrite, hsize]
    · have hcells := Cells.take_overwrite_congr w.lookahead hsize htake
        (Nat.le_trans (Nat.sub_le ..) hs.block_le) hfits
      rwa [htarget] at hcells

/-- The second block has as many cells as it should. -/
theorem distance?_eq (h : Agrees m w) (hs : w.Sound) :
    distance? m.block m.buffer.size = some w.block := by
  have hsize : m.buffer.size = 2 * m.block := by rw [h.size_eq, hs.size_eq, h.block_eq]
  rw [distance?, if_pos (by omega), ← h.block_eq, hsize, Nat.two_mul, Nat.add_sub_cancel]

variable {bytes : List UInt8} {t : Source}

/-- What the source brings comes into cells of the second block. -/
theorem fillBlock_of_ok (h : Agrees m w) (hs : w.Sound) (hstop : w.stop = w.block)
    (hlen : bytes.length ≤ w.block) (hw : w.source.fill w.block = .ok bytes t)
    (hread : fillFrom w.block 0 m = .ok bytes.length (m.received 0 bytes t)) :
    ∃ m' w', Window.fillBlock w = .ok () w' ∧ fillBlockChecked w.available m = .ok () m' ∧
      Agrees m' w' ∧ w'.start = w.start ∧ m'.copied = m.copied ∧ m'.source = t := by
  have hsize := hs.size_eq
  have hroom := h.distance?_eq hs
  have havailable : w.available = w.block - w.start := congrArg (· - w.start) hstop
  obtain ⟨buffer, copied, rfl, hsize', htake⟩ := h.exists_eq
  let w' : Window := { w with
    source := t
    buffer := Cells.overwrite w.buffer w.block bytes
    stop := w.block + bytes.length
    events := w.events.push (.refilled w.available bytes.length) }
  refine ⟨⟨{ w' with buffer := Cells.overwrite buffer w.block bytes }, copied⟩, w', ?_,
    (orBreak_bind hroom).trans (bind_of_ok hread), ⟨rfl, ?_, ?_⟩, rfl, rfl, rfl⟩
  · unfold Window.fillBlock
    dsimp only
    rw [hw, ← havailable]
  · show (Cells.overwrite ..).size = (Cells.overwrite ..).size
    rw [Cells.size_overwrite, Cells.size_overwrite, hsize']
  · exact Cells.take_overwrite_congr bytes hsize' htake (Nat.le_of_eq hstop.symm) (by omega)

/-- What the source brought before it failed lies in the second block, and nothing of it is
available. -/
theorem fillBlock_of_error {text : String} {lost : List UInt8} (h : Agrees m w) (hs : w.Sound)
    (hstop : w.stop = w.block) (hlen : lost.length ≤ w.block)
    (hw : w.source.fill w.block = .error text t)
    (hread : fillFrom w.block 0 m = .error (.error (.read text)) (m.received 0 lost t)) :
    Window.fillBlock w = .error (.error (.read text)) { w with source := t } ∧
      fillBlockChecked w.available m = .error (.error (.read text)) (m.received 0 lost t) ∧
      Agrees (m.received 0 lost t) { w with source := t } := by
  have hsize := hs.size_eq
  have hroom := h.distance?_eq hs
  obtain ⟨buffer, copied, rfl, hsize', htake⟩ := h.exists_eq
  have hfits : w.block + lost.length ≤ buffer.size := by omega
  refine ⟨?_, (orBreak_bind hroom).trans (bind_of_error hread), rfl, ?_, ?_⟩
  · unfold Window.fillBlock
    dsimp only
    rw [hw, ← hstop]
  · exact (size_received ..).trans hsize'
  · rw [hstop] at htake ⊢
    exact (Cells.take_start_overwrite buffer hfits).trans htake

/-- The second block is filled in the same way, with no more bytes than it has cells. -/
theorem fillBlock (h : Agrees m w) (hs : w.Sound) (hstop : w.stop = w.block) :
    ∃ error? m' w', Returns Window.fillBlock w error? w' ∧
      Returns (fillBlockChecked w.available) m error? m' ∧ Agrees m' w' ∧ w'.start = w.start ∧
      m'.copied = m.copied ∧ m'.source.delivered ≤ m.source.delivered + w.block := by
  have hsize : m.block + w.block ≤ m.buffer.size := by
    rw [h.block_eq, h.size_eq, hs.size_eq]
    omega
  have hdelivers := w.source.fill_delivers w.block
  have hfill := fillFrom_of_fill m w.source 0 (Nat.zero_add w.block) h.source_eq hsize
  rw [h.source_eq]
  cases hw : w.source.fill w.block with
  | ok bytes t =>
    rw [hw] at hdelivers hfill
    obtain ⟨hbytes, hlen⟩ := hdelivers
    have hread := Eq.trans hfill (congrArg (EStateM.Result.ok · _) (Nat.zero_add _))
    obtain ⟨m', w', hrun, hchecked, hagrees, hstart, hcopied, rfl⟩ :=
      h.fillBlock_of_ok hs hstop hlen hw hread
    refine ⟨none, m', w', ⟨(), hrun⟩, ⟨(), hchecked⟩, hagrees, hstart, hcopied, ?_⟩
    rw [hbytes.delivered_eq]
    exact Nat.add_le_add_left hlen _
  | error text t =>
    rw [hw] at hfill
    obtain ⟨lost, hlost, hlen, hread⟩ := hfill
    obtain ⟨hrun, hchecked, hagrees⟩ := h.fillBlock_of_error hs hstop hlen hw hread
    refine ⟨some (.read text), _, _, hrun, hchecked, hagrees, rfl, rfl, ?_⟩
    show t.delivered ≤ _
    rw [hlost.delivered_eq]
    exact Nat.add_le_add_left hlen _

end Agrees

/-! ## Refills -/

variable {minimum maximum available : Nat}

theorem refillChecked_eq (minimum maximum : Nat) (h : m.availableChecked? = some available) :
    refillChecked minimum maximum m =
      if maximum < minimum then .error (.violation (.lookaheadOrder minimum maximum)) m
      else if m.block < maximum then .error (.violation (.lookaheadTooLong maximum m.block)) m
      else if available < maximum then
        (do
          (do carryChecked available; fillBlockChecked available)
          let available ← orBreak (← get).availableChecked?
          return minimum ≤ available : Action Bool) m
      else .ok (decide (minimum ≤ available)) m := by
  show (if maximum < minimum then _ else if m.block < maximum then _ else
    orBreak m.availableChecked? >>= _ : Action Bool) m = _
  split
  · rfl
  split
  · rfl
  rw [orBreak_bind h]
  split
  · rw [bind_assoc]
  · exact orBreak_bind h

/-- A refill that finds too little carries it and fills the second block. -/
theorem returns_refillChecked (hle : minimum ≤ maximum) (hblock : maximum ≤ m.block)
    (havailable : m.availableChecked? = some available) (hneeded : available < maximum)
    (h : Returns (do carryChecked available; fillBlockChecked available) m error? m')
    (hafter : m'.start ≤ m'.stop) :
    Returns (discard (refillChecked minimum maximum)) m error? m' := by
  have hrefill := refillChecked_eq minimum maximum havailable
  rw [if_neg (Nat.not_lt.2 hle), if_neg (Nat.not_lt.2 hblock), if_pos hneeded] at hrefill
  cases error? with
  | none =>
    obtain ⟨_, h⟩ := h
    exact ⟨(), discard_of_ok (hrefill.trans ((bind_of_ok h).trans (orBreak_bind (if_pos hafter))))⟩
  | some e => exact discard_of_error (hrefill.trans (bind_of_error h))

end Metered
end Window
end BitTransducer
