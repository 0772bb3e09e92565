import BitTransducer.Cells
import BitTransducer.Word

/-! # Bit buffers

A bit buffer holds a bit string in an array of words, first bit in the most significant place, and
is written at a cursor. Writes are or-ed into place, so a buffer is sound only as long as every
stored bit from the cursor on is zero; all operations keep it so, `drain` and `reset` included,
which clear what they give up.

The view of a buffer is `BitBuffer.content`, the bits before the cursor. A write that would touch
a word past the end of the storage has no result; the owner avoids that by draining the buffer or
letting it grow as soon as `nearEnd` says that the cursor is in the last word. What can be seen of a
buffer is meant for storage that reaches up to the cursor, and `nearEnd` for one that has words.

Main statements: `size_storage_put`, `size_storage_putWords` and `size_storage_drain` (only growth
changes the storage's size), `position_putWords` (a write moves the cursor by its bits). -/

namespace BitTransducer

/-- Packed bits in words of width `W`, written at the bit `position`. -/
structure BitBuffer (W : Width) where
  storage : Array (Word W)
  position : Nat
deriving DecidableEq

namespace BitBuffer

variable {W : Width}

/-- The capacity in bytes of a buffer that is given none. -/
def defaultCapacity : Nat := 32768

/-- The words that hold `bytes` bytes, and no fewer than two: a write may spill into a second. -/
def capacityWords (W : Width) (bytes : Nat) : Nat := max 2 (Bits.ceilDiv bytes W.bytes)

/-- An empty buffer with room for at least `bytes` bytes. -/
def withCapacity (bytes : Nat) : BitBuffer W :=
  { storage := Array.replicate (capacityWords W bytes) 0, position := 0 }

/-- An empty buffer of the default capacity. -/
def empty : BitBuffer W := withCapacity defaultCapacity

instance : Inhabited (BitBuffer W) := ⟨empty⟩

/-! ## Observations -/

/-- Capacity in bytes. -/
def size (b : BitBuffer W) : Nat := b.storage.size * W.bytes

/-- Whether nothing is written. -/
def isEmpty (b : BitBuffer W) : Bool := b.position = 0

/-- Bits written to the word that the cursor is in. -/
def offset (b : BitBuffer W) : Nat := b.position % W.bits

/-- Whether the cursor is between two words. -/
def isAligned (b : BitBuffer W) : Bool := b.offset = 0

/-- Whether the cursor has reached the last word, where a write may not find room to spill. -/
def nearEnd (b : BitBuffer W) : Bool := b.storage.size * W.bits - W.bits ≤ b.position

/-- The number of completely written words. -/
def completeCount (b : BitBuffer W) : Nat := b.position / W.bits

/-- The completely written words. -/
def completeWords (b : BitBuffer W) : List (Word W) :=
  (b.storage.extract 0 b.completeCount).toList

/-- The word that is written in part and the number of its written bits, if there is one. -/
def partialWord? (b : BitBuffer W) : Option (Word W × Nat) :=
  if b.isAligned then none else some (b.storage.getD b.completeCount 0, b.offset)

/-- The number of words that are written at least in part. -/
def writtenCount (b : BitBuffer W) : Nat := Bits.ceilDiv b.position W.bits

/-- The words that are written at least in part. -/
def writtenWords (b : BitBuffer W) : List (Word W) :=
  (b.storage.extract 0 b.writtenCount).toList

/-- The bits written so far. -/
def content (b : BitBuffer W) : List Bool := (Words.toBits b.storage.toList).take b.position

/-- The bits written so far as bytes, the last one filled up with zeros. -/
def toBytes (b : BitBuffer W) : List UInt8 :=
  (Words.toBytes b.writtenWords).take (Bits.ceilDiv b.position 8)

/-! ## Writing -/

/-- The words that a write at the cursor touches exist: one at a word boundary, two elsewhere,
however few bits are written. -/
def HasRoom (b : BitBuffer W) : Prop :=
  b.completeCount + (if b.isAligned then 1 else 2) ≤ b.storage.size

instance (b : BitBuffer W) : Decidable b.HasRoom := inferInstanceAs (Decidable (_ ≤ _))

/-- Ors a word into place at the cursor and moves the cursor by `count`. -/
def put (b : BitBuffer W) (word : Word W) (count : Nat) : BitBuffer W :=
  let ⟨storage, position⟩ := b
  let index := position / W.bits
  let offset := position % W.bits
  if offset = 0 then
    { storage := storage.modify index (· ||| word), position := position + count }
  else
    { storage := (storage.modify index (· ||| word >>> offset)).modify (index + 1)
        (· ||| word <<< (W.bits - offset)),
      position := position + count }

/-- Writes the first `count` bits of a word whose other bits are zero; no result without room. -/
def write? (b : BitBuffer W) (word : Word W) (count : Nat) : Option (BitBuffer W) :=
  if b.HasRoom then some (b.put word count) else none

/-- The words that a write of `count` bits at the cursor touches exist. -/
def HasRoomFor (b : BitBuffer W) (count : Nat) : Prop :=
  count = 0 ∨ b.completeCount + Bits.ceilDiv count W.bits + (if b.isAligned then 0 else 1) ≤
    b.storage.size

instance (b : BitBuffer W) (count : Nat) : Decidable (b.HasRoomFor count) :=
  inferInstanceAs (Decidable (_ ∨ _))

/-- Lays the first `count` bits of `words` down at the cursor: as a block at a word boundary, and
word by word elsewhere. -/
def putWords (b : BitBuffer W) (words : List (Word W)) (count : Nat) : BitBuffer W :=
  if b.isAligned then
    let ⟨storage, position⟩ := b
    let block := (Words.pieces words count).map (·.1)
    { storage := Cells.overwrite storage (position / W.bits) block, position := position + count }
  else
    (Words.pieces words count).foldl (fun b piece => b.put piece.1 piece.2) b

/-- Writes the first `count` bits of `words`; no result without room, or when the words do not
hold as many bits. -/
def writeWords? (b : BitBuffer W) (words : List (Word W)) (count : Nat) : Option (BitBuffer W) :=
  if Words.Hold words count ∧ b.HasRoomFor count then some (b.putWords words count) else none

/-! ## Giving up content -/

/-- Clears the written bits and moves the cursor to the start. -/
def reset (b : BitBuffer W) : BitBuffer W :=
  { storage := Cells.fillFirst b.storage (Bits.ceilDiv b.position W.bits) 0, position := 0 }

/-- Clears the complete words and moves the partial word to the front. -/
def drain (b : BitBuffer W) : BitBuffer W :=
  let ⟨storage, position⟩ := b
  let count := position / W.bits
  match storage[count]? with
  | some carried =>
    { storage := ((Cells.fillFirst storage count 0).setIfInBounds count 0).setIfInBounds 0 carried,
      position := position % W.bits }
  | none => { storage := Cells.fillFirst storage count 0, position := position % W.bits }

/-- Hands the complete words to `emit` and drains the buffer, if there are any; the number of words
handed over and the buffer that is left. The buffer stays as it was when `emit` fails. -/
def flushWith {m : Type → Type} [Monad m] (emit : List (Word W) → m Unit) (b : BitBuffer W) :
    m (Nat × BitBuffer W) :=
  if b.completeCount = 0 then pure (0, b)
  else do
    emit b.completeWords
    pure (b.completeCount, b.drain)

/-! ## What each operation does to size and cursor -/

@[simp] theorem position_put (b : BitBuffer W) (word : Word W) (count : Nat) :
    (b.put word count).position = b.position + count := by
  simp only [put]; split <;> rfl

@[simp] theorem size_storage_put (b : BitBuffer W) (word : Word W) (count : Nat) :
    (b.put word count).storage.size = b.storage.size := by
  simp only [put]; split <;> simp

private theorem size_storage_foldl_put (pieces : List (Word W × Nat)) (b : BitBuffer W) :
    (pieces.foldl (fun b piece => b.put piece.1 piece.2) b).storage.size = b.storage.size := by
  induction pieces generalizing b with
  | nil => rfl
  | cons piece pieces ih => rw [List.foldl_cons, ih, size_storage_put]

@[simp] theorem size_storage_putWords (b : BitBuffer W) (words : List (Word W)) (count : Nat) :
    (b.putWords words count).storage.size = b.storage.size := by
  simp only [putWords]; split
  · simp
  · exact size_storage_foldl_put ..

private theorem position_foldl_put (words : List (Word W)) (count : Nat) (b : BitBuffer W)
    (h : Words.Hold words count) :
    ((Words.pieces words count).foldl (fun b piece => b.put piece.1 piece.2) b).position =
      b.position + count := by
  induction words generalizing b count with
  | nil => simp_all [Words.Hold, Words.pieces]
  | cons word words ih =>
    rw [Words.pieces]
    split
    · rename_i hc
      rw [List.foldl_cons, ih _ _ (by simp [Words.Hold, Nat.add_mul] at h ⊢; omega), position_put]
      omega
    · split <;> simp_all

/-- A write moves the cursor by the bits written. -/
theorem position_putWords (b : BitBuffer W) (words : List (Word W)) (count : Nat)
    (h : Words.Hold words count) : (b.putWords words count).position = b.position + count := by
  simp only [putWords]; split
  · rfl
  · exact position_foldl_put words count b h

@[simp] theorem size_storage_drain (b : BitBuffer W) :
    b.drain.storage.size = b.storage.size := by
  simp only [drain]; split <;> simp

@[simp] theorem position_drain (b : BitBuffer W) : b.drain.position = b.offset := by
  simp only [drain, offset]; split <;> rfl

end BitBuffer
end BitTransducer
