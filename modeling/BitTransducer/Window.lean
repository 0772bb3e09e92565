import BitTransducer.Cells
import BitTransducer.Event
import BitTransducer.Failure
import BitTransducer.Source

/-! # Lookahead windows

A window shows the next bytes of a source without consuming them. It holds two blocks of `block`
bytes and fills the second one; the bytes that are still unconsumed then are first moved to the end
of the first block, so that they and the new bytes lie side by side.

```text
 0                 block             2 * block
 |      carried ###|### fresh block   |
        ^ start                       ^ stop (at most)
```

`refill minimum maximum` fills the second block unless `maximum` bytes are available already, and
answers whether `minimum` are. When the source fails, the unconsumed bytes stay available. -/

namespace BitTransducer

/-- A view of the next bytes of `source`: the cells of `buffer` from `start` to `stop`. -/
structure Window where
  source : Source
  buffer : Array UInt8
  block : Nat
  start : Nat
  stop : Nat
  /-- Bytes consumed so far. -/
  count : Nat
  /-- Events not yet collected, oldest first. -/
  events : Array Event

namespace Window

/-- Steps on a window fail with the error of a read, or with a violation. -/
abbrev Action (α : Type) := EStateM (Failure StreamError) Window α

/-- An empty window with blocks of `block` bytes. -/
def ofBlock (source : Source) (block : Nat) : Window :=
  { source, buffer := Array.replicate (2 * block) 0, block, start := block, stop := block,
    count := 0, events := #[] }

/-- An empty window with blocks of `block` bytes; a violation if they have none. -/
def openWith (source : Source) (block : Nat) : Except Violation Window :=
  if block = 0 then .error .zeroBlock else .ok (ofBlock source block)

/-! ## Observations -/

/-- Bytes available. -/
def available (w : Window) : Nat := w.stop - w.start

/-- The place of the first available byte, counted from the second block; negative while carried
bytes are left. -/
def cursor (w : Window) : Int := w.start - w.block

/-- Bytes that the last refill brought. -/
def lastRead (w : Window) : Nat := w.stop - w.block

/-- The next `count` bytes, or all that are available if there are fewer. -/
def peek (w : Window) (count : Nat) : List UInt8 :=
  (w.buffer.extract w.start (min (w.start + count) w.stop)).toList

/-- All bytes available. -/
def lookahead (w : Window) : List UInt8 := w.peek w.available

/-- Whether the available bytes start with `literal`. -/
def startsWith (w : Window) (literal : List UInt8) : Bool := w.peek literal.length == literal

/-! ## Steps -/

/-- Moves the available bytes to the end of the first block. -/
def carry (w : Window) : Window :=
  let kept := w.lookahead
  { w with
    buffer := Cells.overwrite w.buffer (w.block - kept.length) kept
    start := w.block - kept.length
    stop := w.block }

/-- Reads into the second block of a window that ends before it. -/
def fillBlock : Action Unit := fun w =>
  let ⟨source, buffer, block, start, _, count, events⟩ := w
  match source.fill block with
  | .ok bytes source =>
    .ok () { source, buffer := Cells.overwrite buffer block bytes, block, start,
             stop := block + bytes.length, count,
             events := events.push (.refilled (block - start) bytes.length) }
  | .error text source =>
    .error (.error (.read text)) { source, buffer, block, start, stop := block, count, events }

/-- Makes `maximum` bytes available if the source has them; whether `minimum` are available. -/
def refill (minimum maximum : Nat) : Action Bool := do
  let w ← get
  if maximum < minimum then throw (.violation (.lookaheadOrder minimum maximum))
  if w.block < maximum then throw (.violation (.lookaheadTooLong maximum w.block))
  if w.available < maximum then
    modify carry
    fillBlock
  return minimum ≤ (← get).available

/-- Passes over `count` available bytes. -/
def consume (count : Nat) : Action Unit := do
  let w ← get
  if w.available < count then throw (.violation (.overconsumed count w.available))
  modify fun w => { w with start := w.start + count, count := w.count + count }

end Window
end BitTransducer
