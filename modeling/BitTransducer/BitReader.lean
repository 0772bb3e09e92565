import BitTransducer.Failure
import BitTransducer.Word

/-! # Reading bits back

A reader goes through the bits of a byte string from the most significant bit of the first byte.
It is limited to the first `length` bits, and every operation that fails leaves it where it was.

Numbers of up to 64 bits are read byte by byte: the rest of the byte under the cursor, whole
bytes, and the head of the last one. -/

namespace BitTransducer

/-- A position in the first `length` bits of `data`. -/
structure BitReader where
  data : Array UInt8
  length : Nat
  position : Nat

namespace BitReader

/-- Reading steps fail with a `ReadError`, or with a violation past the end of the data. -/
abbrev Action (α : Type) := EStateM (Failure ReadError) BitReader α

/-- A reader over all bits of `data`. -/
def ofBytes (data : Array UInt8) : BitReader := { data, length := 8 * data.size, position := 0 }

/-- A reader over the first `length` bits of `data`; a violation if there are not as many. -/
def ofPrefix (data : Array UInt8) (length : Nat) : Except Violation BitReader :=
  if length ≤ 8 * data.size then .ok { data, length, position := 0 } else .error .outOfBounds

/-- Bits not yet read. -/
def remaining (r : BitReader) : Nat := r.length - r.position

/-- Whether there are bits not yet read. -/
def hasBits (r : BitReader) : Bool := r.position < r.length

/-- The bits not yet read. -/
def unread (r : BitReader) : List Bool :=
  ((Bits.ofBytes r.data.toList).take r.length).drop r.position

/-- `value` followed by the `count` bits from `position` on, as a number; `none` past the end. -/
def gather? (data : Array UInt8) (position count value : Nat) : Option Nat :=
  if count = 0 then some value
  else
    let room := 8 - position % 8
    let taken := min count room
    match data[position / 8]? with
    | none => none
    | some byte =>
      let bits := byte.toNat >>> (room - taken) % 1 <<< taken
      gather? data (position + taken) (count - taken) (value <<< taken + bits)
termination_by count

/-- Moves the cursor by `count` bits. -/
def advance (count : Nat) : Action Unit :=
  modify fun r => { r with position := r.position + count }

/-- Fails unless `count` bits are left. -/
def demand (count : Nat) : Action Unit := do
  if (← get).remaining < count then throw (.error .underflow)

/-- Reads the number that the next `count` bits spell, whose count is known to be right. -/
def take (count : Nat) : Action Nat := do
  demand count
  let r ← get
  match gather? r.data r.position count 0 with
  | none => throw (.violation .outOfBounds)
  | some value =>
    advance count
    return value

/-- Reads one bit, 0 or 1. -/
def readBit : Action Nat := do
  demand 1
  let r ← get
  match r.data[r.position / 8]? with
  | none => throw (.violation .outOfBounds)
  | some byte =>
    advance 1
    return byte.toNat >>> (7 - r.position % 8) % 2

/-- Reads the number that the next `count` bits spell, 1 to 64 of them. -/
def readBits (count : Nat) : Action Nat := do
  if count = 0 ∨ 64 < count then throw (.error (.invalidLength count))
  take count

/-- Reads the next `count` bits, no more than a word holds, into the top of a word. -/
def readWord (W : Width) (count : Nat) : Action (Word W) := do
  if W.bits < count then throw (.error (.invalidLength count))
  return Word.leftAlign (← readBits count) count

/-- Passes over `count` bits. -/
def skip (count : Nat) : Action Unit := do
  demand count
  advance count

/-- Passes over the bits before the next multiple of the word width, or all bits that are left if
there is none. -/
def alignWord (W : Width) : Action Unit := modify fun r =>
  let offset := r.position % W.bits
  if offset = 0 then r
  else { r with position := min (r.position + W.bits - offset) r.length }

end BitReader
end BitTransducer
