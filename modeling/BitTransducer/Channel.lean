import BitTransducer.BitBuffer.Basic
import BitTransducer.Event
import BitTransducer.Failure
import BitTransducer.Sink

/-! # Output channels

A channel packs bits into a buffer of fixed size and hands complete words to a sink as big-endian
bytes. The last word of the buffer is a margin: as soon as a write moves the cursor into it, the
complete words are flushed and the partial word moves to the front.

Sequences of words have two ways in. At a word boundary they are copied as a block (`writeWords`)
or, after a flush, go to the sink directly (`writeWordsDirect`); elsewhere every word is shifted
into place (`writeShifted`). Whatever the way, the sink's bytes followed by the buffered bits are
the bits written so far: that is `Channel.stream`.

When the sink fails, buffer and byte count are as before the words were handed over, though the sink
may have taken some of their bytes. -/

namespace BitTransducer

/-- A bit buffer that drains to a sink. -/
structure Channel (W : Width) where
  buffer : BitBuffer W
  sink : Sink
  /-- Bytes of the words that the sink took in full. -/
  bytesWritten : Nat
  /-- Events not yet collected, oldest first. -/
  events : Array Event

namespace Channel

variable {W : Width}

/-- Steps on a channel fail with the error of a write, or with a violation. -/
abbrev Action (W : Width) (α : Type) := EStateM (Failure StreamError) (Channel W) α

/-- An empty channel with room for `capacity` bytes before the margin word. -/
def ofSink (sink : Sink) (capacity : Nat) : Channel W :=
  { buffer := .withCapacity (capacity + W.bytes), sink, bytesWritten := 0, events := #[] }

/-- The bits written so far: those that reached the sink, and those in the buffer. -/
def stream (c : Channel W) : List Bool := Bits.ofBytes c.sink.received ++ c.buffer.content

/-! ## Parts of steps -/

/-- Does something to the sink; what fails there is a write error. -/
def onSink (step : EStateM String Sink Unit) : Action W Unit := fun c =>
  let ⟨buffer, sink, bytesWritten, events⟩ := c
  match step sink with
  | .ok () sink => .ok () { buffer, sink, bytesWritten, events }
  | .error text sink => .error (.error (.write text)) { buffer, sink, bytesWritten, events }

/-- Changes the buffer. -/
def onBuffer (step : BitBuffer W → BitBuffer W) : Action W Unit := fun c =>
  let ⟨buffer, sink, bytesWritten, events⟩ := c
  .ok () { buffer := step buffer, sink, bytesWritten, events }

/-- Fails with a violation unless `p` holds, without which a storage would be overrun. -/
def inBounds (p : Prop) [Decidable p] : Action W Unit :=
  if p then pure () else throw (.violation .outOfBounds)

/-- Logs an event. -/
def note (e : Event) : Action W Unit :=
  modify fun c => { c with events := c.events.push e }

/-- Hands words to the sink. -/
def emit (words : List (Word W)) : Action W Unit := do
  onSink (Sink.writeAll (Words.toBytes words))
  modify fun c => { c with bytesWritten := c.bytesWritten + words.length * W.bytes }

/-! ## Steps -/

/-- Hands the complete words to the sink and moves the partial word to the front. Does nothing when
no word is complete. -/
def flush : Action W Unit := do
  let (words, buffer) ← (← get).buffer.flushWith emit
  onBuffer fun _ => buffer
  if words ≠ 0 then note (.flushed words buffer.position)

/-- Writes the first `count` bits of a word whose other bits are zero. -/
def write (word : Word W) (count : Nat) : Action W Unit := do
  inBounds (← get).buffer.HasRoom
  onBuffer (·.put word count)
  if (← get).buffer.nearEnd then flush

/-- Writes the first `count` bits of `words`, one word at a time. -/
def writeShifted (words : List (Word W)) (count : Nat) : Action W Unit := do
  inBounds (Words.Hold words (count / W.bits * W.bits))
  (Words.pieces words count).forM fun piece => write piece.1 piece.2
  inBounds (Words.Hold words count)

/-- Writes a block of the words that fit before the margin, at a word boundary, and flushes if it
comes near the end; the number of bits written, `count` at most. -/
def writeBlock (words : List (Word W)) (count : Nat) : Action W Nat := do
  let buffer := (← get).buffer
  inBounds (buffer.completeCount < buffer.storage.size)
  let taken := min count ((buffer.storage.size - 1 - buffer.completeCount) * W.bits)
  inBounds (Words.Hold words taken ∧ buffer.HasRoomFor taken)
  onBuffer (·.putWords words taken)
  if (← get).buffer.nearEnd then flush
  return taken

/-- Writes the first `count` bits of `words` block by block, in `limit` blocks at most. A block can
be empty only when the buffer is full up to the margin, and its flush makes room, so that there are
no more blocks than bits and one. -/
def writeBlocks : (limit : Nat) → List (Word W) → (count : Nat) → Action W Unit
  | _, _, 0 => return
  | 0, _, _ => throw (.violation .stalled)
  | limit + 1, words, count => do
    let taken ← writeBlock words count
    writeBlocks limit (words.drop (taken / W.bits)) (count - taken)

/-- Writes the first `count` bits of `words` through the buffer. -/
def writeWords (words : List (Word W)) (count : Nat) : Action W Unit := do
  if (← get).buffer.isAligned then writeBlocks (count + 1) words count
  else writeShifted words count

/-- Writes the first `count` bits of `words`, the whole words directly to the sink when the cursor
is at a word boundary. Only whole words are buffered then, so that a flush leaves nothing that would
have to come first. -/
def writeWordsDirect (words : List (Word W)) (count : Nat) : Action W Unit := do
  if (← get).buffer.isAligned then
    flush
    let whole := count / W.bits
    inBounds (Words.Hold words (whole * W.bits))
    if whole ≠ 0 then emit (words.take whole)
    let rest := count % W.bits
    if rest ≠ 0 then
      match words[whole]? with
      | none => throw (.violation .outOfBounds)
      | some word => write (word.keep rest) rest
  else writeShifted words count

/-- Writes everything written to `source`. -/
def writeBuffer (source : BitBuffer W) : Action W Unit :=
  writeWordsDirect source.writtenWords source.position

/-- Writes zeros up to the next word boundary. -/
def pad : Action W Unit := do
  let offset := (← get).buffer.offset
  if offset ≠ 0 then write 0 (W.bits - offset)

/-- Asks the sink to flush, whatever is buffered here. -/
def flushSink : Action W Unit := onSink Sink.flush

/-- Pads, hands everything over and asks the sink to flush. -/
def finish : Action W Unit := do
  pad
  flush
  flushSink
  note (.finished (← get).bytesWritten)

end Channel
end BitTransducer
