import BitTransducer.BitBuffer.Basic

/-! # Growing bit buffers

A buffer that accumulates bits doubles its storage as often as it takes to keep the cursor out of
the last word. `append` doubles after a write that moved the cursor there, `appendWords` enlarges
the storage before it writes, by the shift that `growthShift` finds.

`growthShift` goes by two bounds: a margin, which keeps a word free after the bits written, and a
threshold on the size in bytes. Both searches take the first shift that fits, and stop: a shift
by more than the number of bits always fits.

`enlarge` has no limit. Growth by a shift that a caller is free to choose has one: a length is a
number of 64 bits, and what it is multiplied to loses the bits above (`grownLength`), so that
`resize` may cut the storage off instead. Where there can be as much storage as is asked for
(`CanGrow`), no bit of the length is lost. -/

namespace BitTransducer
namespace BitBuffer

variable {W : Width}

/-- Cuts the storage off after `length` words, or adds words up to as many. The cursor stays. -/
def resize (b : BitBuffer W) (length : Nat) : BitBuffer W :=
  let ⟨storage, position⟩ := b
  { storage := storage.take length ++ Array.replicate (length - storage.size) 0, position }

/-- Multiplies the storage by `2 ^ shift`. -/
def enlarge (b : BitBuffer W) (shift : Nat) : BitBuffer W := b.resize (b.storage.size <<< shift)

/-- The length of the storage shifted to the left, in 64 bits. -/
def grownLength (b : BitBuffer W) (shift : Nat) : Nat := b.storage.size <<< shift % UInt64.size

/-- The bytes of a storage are told apart by signed numbers of 64 bits, so there are fewer. -/
def maxStorageBytes : Nat := UInt64.size / 2

/-- There can be storage of `2 ^ shift` times the size. -/
def CanGrow (b : BitBuffer W) (shift : Nat) : Prop :=
  b.storage.size <<< shift * W.bytes < maxStorageBytes

instance (b : BitBuffer W) (shift : Nat) : Decidable (b.CanGrow shift) :=
  inferInstanceAs (Decidable (_ < _))

/-- The number of bits at which a buffer of `size` bytes is grown. -/
def appendThreshold (W : Width) (size : Nat) : Nat := (size - 1) * W.bits * W.bytes

/-- The first shift from `shift` on that `fits`, of the `limit` next ones. -/
def firstFit (fits : Nat → Bool) : (limit shift : Nat) → Nat
  | 0, shift => shift
  | limit + 1, shift => if fits shift then shift else firstFit fits limit (shift + 1)

/-- Whether `total` bits stay below the threshold after growth by `shift`. -/
def belowThreshold (b : BitBuffer W) (total shift : Nat) : Bool :=
  total < appendThreshold W (b.size <<< shift)

/-- Whether `total` bits leave the last word free after growth by `shift`. -/
def keepsMargin (b : BitBuffer W) (total shift : Nat) : Bool :=
  total < (b.storage.size <<< shift - 1) * W.bits

/-- The shift by which a buffer grows before it holds `total` bits: the first that stays below
the threshold, and from there the first that keeps the margin. -/
def growthShift (b : BitBuffer W) (total : Nat) : Nat :=
  firstFit (b.keepsMargin total) (total + 1) (firstFit (b.belowThreshold total) (total + 1) 0)

/-- Writes like `write?` and doubles the storage when the cursor has come near the end. -/
def append? (b : BitBuffer W) (word : Word W) (count : Nat) : Option (BitBuffer W) :=
  (b.write? word count).map fun b => if b.nearEnd then b.enlarge 1 else b

/-- The buffer grown as far as another `count` bits need. -/
def grownFor (b : BitBuffer W) (count : Nat) : BitBuffer W :=
  let shift := b.growthShift (b.position + count)
  if shift = 0 then b else b.enlarge shift

@[simp] theorem position_resize (b : BitBuffer W) (length : Nat) :
    (b.resize length).position = b.position := rfl

@[simp] theorem size_storage_resize (b : BitBuffer W) (length : Nat) :
    (b.resize length).storage.size = length := by
  simp only [resize, Array.size_append, Array.size_replicate, Array.size_extract]; omega

@[simp] theorem position_enlarge (b : BitBuffer W) (shift : Nat) :
    (b.enlarge shift).position = b.position := rfl

@[simp] theorem size_storage_enlarge (b : BitBuffer W) (shift : Nat) :
    (b.enlarge shift).storage.size = b.storage.size <<< shift := b.size_storage_resize _

namespace CanGrow

variable {b : BitBuffer W} {shift : Nat}

/-- No bit of the length is lost. -/
theorem grownLength_eq (h : b.CanGrow shift) : b.grownLength shift = b.storage.size <<< shift := by
  have hle := Nat.le_mul_of_pos_right (b.storage.size <<< shift) W.bytes_pos
  exact Nat.mod_eq_of_lt (Nat.lt_trans (Nat.lt_of_le_of_lt hle h) (by decide))

theorem shift_lt (h : b.CanGrow shift) (hsize : 0 < b.storage.size) : shift < 64 := by
  have hle := Nat.le_mul_of_pos_right (b.storage.size <<< shift) W.bytes_pos
  have hlt : b.storage.size <<< shift < UInt64.size :=
    Nat.lt_trans (Nat.lt_of_le_of_lt hle h) (by decide)
  rw [Nat.shiftLeft_eq] at hlt
  have hpow := Nat.lt_of_le_of_lt (Nat.le_mul_of_pos_left (2 ^ shift) hsize) hlt
  exact (Nat.pow_lt_pow_iff_right Nat.one_lt_two).1 hpow

end CanGrow

end BitBuffer
end BitTransducer
