import BitTransducer.Bits

/-! # Storage words

Packed bits are stored in words of 32 or 64 bits, first bit in the most significant place. A word
is a bit vector of the width's size; `Word.toBits` spells it as a bit string and `Word.toBytes`
as big-endian bytes.

Main statements: `Width.bits_eq` (a word is a whole number of bytes), `Word.length_toBits`,
`Word.length_toBytes`. -/

namespace BitTransducer

/-- The supported word widths. -/
inductive Width
  | w32
  | w64
deriving DecidableEq

namespace Width

/-- Bits in a word. -/
def bits : Width → Nat
  | w32 => 32
  | w64 => 64

/-- Bytes in a word. -/
def bytes : Width → Nat
  | w32 => 4
  | w64 => 8

theorem bits_eq (W : Width) : W.bits = 8 * W.bytes := by cases W <;> rfl

theorem bits_pos (W : Width) : 0 < W.bits := by cases W <;> decide

theorem bytes_pos (W : Width) : 0 < W.bytes := by cases W <;> decide

end Width

/-- A storage word of width `W`. -/
abbrev Word (W : Width) := BitVec W.bits

namespace Word

variable {W : Width}

/-- The word of a number, higher bits dropped. -/
def ofValue (value : Nat) : Word W := BitVec.ofNat W.bits value

/-- The mask of the first `count` bits. -/
def highMask (count : Nat) : Word W := BitVec.allOnes W.bits <<< (W.bits - count)

/-- The low `count` bits of a number, moved to the top of a word over zeros. -/
def leftAlign (value count : Nat) : Word W := ofValue value <<< (W.bits - count)

/-- Only the first `count` bits of a word, zeros below them. -/
def keep (word : Word W) (count : Nat) : Word W := word &&& highMask count

/-- The bits of a word, most significant first. -/
def toBits (word : Word W) : List Bool := (List.range W.bits).map word.getMsbD

/-- The big-endian bytes of a word. -/
def toBytes (word : Word W) : List UInt8 :=
  (List.range W.bytes).map fun i => UInt8.ofNat (word.toNat >>> (8 * (W.bytes - 1 - i)))

@[simp] theorem length_toBits (word : Word W) : word.toBits.length = W.bits := by simp [toBits]

@[simp] theorem length_toBytes (word : Word W) : word.toBytes.length = W.bytes := by simp [toBytes]

end Word

namespace Words

variable {W : Width}

/-- The bits of a sequence of words. -/
def toBits (words : List (Word W)) : List Bool := words.flatMap Word.toBits

/-- The first `count` bits of a sequence of words, as words with their bit counts: whole words as
long as there are any, then the first bits of one more. Runs short with the words. -/
def pieces : List (Word W) → Nat → List (Word W × Nat)
  | [], _ => []
  | word :: words, count =>
    if W.bits ≤ count then (word, W.bits) :: pieces words (count - W.bits)
    else if count = 0 then []
    else [(word.keep count, count)]

/-- The words hold at least `count` bits. -/
def Hold (words : List (Word W)) (count : Nat) : Prop := count ≤ words.length * W.bits

instance (words : List (Word W)) (count : Nat) : Decidable (Hold words count) :=
  inferInstanceAs (Decidable (_ ≤ _))

/-- The big-endian bytes of a sequence of words. -/
def toBytes (words : List (Word W)) : List UInt8 := words.flatMap Word.toBytes

@[simp] theorem toBits_nil : toBits ([] : List (Word W)) = [] := rfl

@[simp] theorem toBits_cons (word : Word W) (words : List (Word W)) :
    toBits (word :: words) = word.toBits ++ toBits words := rfl

@[simp] theorem toBits_append (a b : List (Word W)) : toBits (a ++ b) = toBits a ++ toBits b := by
  simp [toBits]

theorem length_toBits (words : List (Word W)) : (toBits words).length = words.length * W.bits := by
  induction words with
  | nil => simp
  | cons word words ih => simp [ih, Nat.add_mul]; omega

theorem length_toBytes (words : List (Word W)) :
    (toBytes words).length = words.length * W.bytes := by
  induction words with
  | nil => simp [toBytes]
  | cons word words ih =>
    rw [toBytes, List.flatMap_cons, ← toBytes, List.length_append, ih, Word.length_toBytes,
      List.length_cons, Nat.add_mul]
    omega

end Words
end BitTransducer
