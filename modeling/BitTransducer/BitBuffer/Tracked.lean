import BitTransducer.BitBuffer.Growth
import BitTransducer.Event
import BitTransducer.Failure

/-! # Bit buffers with a log

The operations on a bit buffer as steps that log growth and flushes. A step that finds no room fails
with a violation and leaves the buffer as it was; what it logged before stays logged. So does one
whose arithmetic leaves the numbers of 64 bits. The exception is a shift to the left, which drops
bits without a word: `grow` may leave less storage than there was, and a cursor beyond it. -/

namespace BitTransducer

/-- A bit buffer and what was logged of it, oldest first. -/
structure Tracked (W : Width) where
  buffer : BitBuffer W
  events : Array Event

namespace Tracked

variable {W : Width} {ε : Type}

/-- Steps on a bit buffer; `ε` are the errors of what complete words are handed to. -/
abbrev Action (ε : Type) (W : Width) (α : Type) := EStateM (Failure ε) (Tracked W) α

/-- Logs events. -/
def note (events : List Event) : Action ε W Unit := fun t =>
  let ⟨buffer, log⟩ := t
  .ok () { buffer, events := log ++ events.toArray }

/-- Changes the buffer. -/
def update (step : BitBuffer W → BitBuffer W) : Action ε W Unit := fun t =>
  let ⟨buffer, events⟩ := t
  .ok () { buffer := step buffer, events }

/-- Changes the buffer; a violation unless `fits` says that there is room. -/
def updateIf (fits : BitBuffer W → Prop) [DecidablePred fits]
    (step : BitBuffer W → BitBuffer W) : Action ε W Unit := fun t =>
  let ⟨buffer, events⟩ := t
  if fits buffer then .ok () { buffer := step buffer, events }
  else .error (.violation .outOfBounds) { buffer, events }

/-- A violation unless `p` holds. -/
def require (cause : Violation) (p : Prop) [Decidable p] : Action ε W Unit :=
  if p then pure () else throw (.violation cause)

/-- Whether the cursor is near the end; a violation if there is no last word for it to be in. -/
def nearEnd : Action ε W Bool := do
  let b := (← get).buffer
  require .overflow (0 < b.storage.size)
  return b.nearEnd

/-- Writes the first `count` bits of a word; whether the cursor is near the end then. -/
def write (word : Word W) (count : Nat) : Action ε W Bool := do
  updateIf (·.HasRoom) (·.put word count)
  nearEnd

/-- Multiplies the storage by `2 ^ shift`. -/
def enlarge (shift : Nat) : Action ε W Unit := do
  let before := (← get).buffer.size
  update (·.enlarge shift)
  note [.grown before (← get).buffer.size]

/-- Multiplies the storage by `2 ^ shift`, whose length loses the bits that a number of 64 bits does
not have; a violation if the shift is by as many, or if there can be no storage of that length. -/
def grow (shift : Nat) : Action ε W Unit := do
  let b := (← get).buffer
  let bytes := b.grownLength shift * W.bytes
  require .overflow (shift < 64 ∧ bytes < UInt64.size)
  note [.grown b.size bytes]
  require .overflow (bytes < BitBuffer.maxStorageBytes)
  update (·.resize (b.grownLength shift))

/-- Writes the first `count` bits of a word and doubles the storage near the end. -/
def append (word : Word W) (count : Nat) : Action ε W Unit := do
  if ← write word count then enlarge 1

/-- Writes the first `count` bits of `words`; whether the cursor is near the end then. -/
def writeWords (words : List (Word W)) (count : Nat) : Action ε W Bool := do
  updateIf (fun b => Words.Hold words count ∧ b.HasRoomFor count) (·.putWords words count)
  nearEnd

/-- Writes the first `count` bits of `words` after growing as far as they need. -/
def appendWords (words : List (Word W)) (count : Nat) : Action ε W Unit := do
  let before := (← get).buffer.size
  update (·.grownFor count)
  note (Event.ofSizes before (← get).buffer.size)
  discard (writeWords words count)

/-- Appends everything written to `source`. -/
def concat (source : BitBuffer W) : Action ε W Unit :=
  appendWords source.writtenWords source.position

/-- Clears the written bits; a violation if the storage ends before the cursor. -/
def reset : Action ε W Unit := updateIf (fun b => b.writtenCount ≤ b.storage.size) (·.reset)

/-- Hands the complete words to `emit` and keeps the partial word; the number of words. A violation
if the storage ends before the complete words do. -/
def flushWith (emit : List (Word W) → Except ε Unit) : Action ε W Nat := do
  let b := (← get).buffer
  require .outOfBounds (b.completeCount ≤ b.storage.size)
  match b.flushWith emit with
  | .error e => throw (.error e)
  | .ok (words, buffer) =>
    update fun _ => buffer
    if words ≠ 0 then note [.flushed words buffer.position]
    return words

end Tracked
end BitTransducer
