import Mathlib.Algebra.Group.Nat.Defs
import Mathlib.Order.Bounds.Basic
import BitTransducer.Proofs.BitBuffer.Content

/-! # How far a bit buffer grows

A buffer that grows before a write searches for a shift by two bounds, one after the other. The
second bound alone decides: a shift that leaves the last word free is always below the threshold
too. So growth leads to the least size that is a doubling of the storage and leaves a word free
after the bits (`spareSizes`), and so does the doubling of an append. Going there in several steps
is the same as going there in one.

Main statements: `isLeast_growthShift`, `isLeast_grownFor`, `Sound.isLeast_append?` and
`isLeast_spareSizes_trans`. -/

namespace BitTransducer
namespace BitBuffer

variable {W : Width} {b : BitBuffer W} {total shift : Nat}

/-! ## The search for a shift -/

/-- The search finds the first number that fits, if there is one within its limit. -/
theorem isLeast_firstFit {fits : Nat → Bool} {limit k : Nat} (hk : fits k = true)
    (hle : shift ≤ k) (hlt : k < shift + limit) :
    IsLeast {s | shift ≤ s ∧ fits s = true} (firstFit fits limit shift) := by
  induction limit generalizing shift with
  | zero => omega
  | succ limit ih =>
    rw [firstFit]
    split
    · rename_i hfits
      exact ⟨⟨Nat.le_refl _, hfits⟩, fun s hs => hs.1⟩
    · rename_i hfits
      have hne : shift ≠ k := fun h => hfits (h ▸ hk)
      have hnext : IsLeast {s | shift + 1 ≤ s ∧ fits s = true} (firstFit fits limit (shift + 1)) :=
        ih (by omega) (by omega)
      obtain ⟨⟨hshift, hfirst⟩, hleast⟩ := hnext
      refine ⟨⟨Nat.le_of_succ_le hshift, hfirst⟩, fun s hs => hleast ⟨?_, hs.2⟩⟩
      exact Nat.lt_of_le_of_ne hs.1 fun h => hfits (h ▸ hs.2)

theorem keepsMargin_iff : b.keepsMargin total shift = true ↔
    total < (b.storage.size * 2 ^ shift - 1) * W.bits := by
  rw [keepsMargin, decide_eq_true_iff, Nat.shiftLeft_eq]

/-- A shift by the number of bits always leaves a word free. -/
theorem keepsMargin_self (hsize : 2 ≤ b.storage.size) (total : Nat) :
    b.keepsMargin total total = true := by
  rw [keepsMargin_iff]
  have hpow : total < 2 ^ total := Nat.lt_two_pow_self
  have hwords := Nat.mul_le_mul_right (2 ^ total) hsize
  calc total < 2 ^ total := hpow
    _ ≤ b.storage.size * 2 ^ total - 1 := by omega
    _ ≤ (b.storage.size * 2 ^ total - 1) * W.bits := Nat.le_mul_of_pos_right _ W.bits_pos

/-- The threshold, which scales a number of bytes by the bits and by the bytes of a word, lies above
the margin. -/
theorem belowThreshold_of_keepsMargin (h : b.keepsMargin total shift = true) :
    b.belowThreshold total shift = true := by
  rw [keepsMargin_iff] at h
  rw [belowThreshold, decide_eq_true_iff, appendThreshold, size, Nat.shiftLeft_eq,
    Nat.mul_right_comm b.storage.size]
  have hwords : b.storage.size * 2 ^ shift ≤ b.storage.size * 2 ^ shift * W.bytes :=
    Nat.le_mul_of_pos_right _ W.bytes_pos
  calc total < (b.storage.size * 2 ^ shift - 1) * W.bits := h
    _ ≤ (b.storage.size * 2 ^ shift * W.bytes - 1) * W.bits :=
      Nat.mul_le_mul_right _ (Nat.sub_le_sub_right hwords 1)
    _ ≤ (b.storage.size * 2 ^ shift * W.bytes - 1) * W.bits * W.bytes :=
      Nat.le_mul_of_pos_right _ W.bytes_pos

/-- A buffer grows by the least shift that leaves its last word free: every shift that does so is
below the threshold, so that the threshold asks for no more. -/
theorem isLeast_growthShift (hsize : 2 ≤ b.storage.size) (total : Nat) :
    IsLeast {s | b.keepsMargin total s = true} (b.growthShift total) := by
  have hself := keepsMargin_self hsize total
  obtain ⟨-, hbelow⟩ := isLeast_firstFit (belowThreshold_of_keepsMargin hself) (Nat.zero_le _)
    (show total < 0 + (total + 1) by omega)
  have hle := hbelow ⟨Nat.zero_le _, belowThreshold_of_keepsMargin hself⟩
  obtain ⟨⟨-, hmargin⟩, hleast⟩ :=
    isLeast_firstFit hself hle (show total < _ + (total + 1) by omega)
  refine ⟨hmargin, fun s hs => hleast ⟨?_, hs⟩⟩
  exact hbelow ⟨Nat.zero_le _, belowThreshold_of_keepsMargin hs⟩

/-! ## Sizes -/

/-- The sizes that doubling `len` words leads to and that leave the last word free after `total`
bits. -/
def spareSizes (W : Width) (len total : Nat) : Set Nat :=
  {n | (∃ k, n = len * 2 ^ k) ∧ total < (n - 1) * W.bits}

theorem isLeast_spareSizes_self {len : Nat} (h : total < (len - 1) * W.bits) :
    IsLeast (spareSizes W len total) len := by
  refine ⟨⟨⟨0, (Nat.mul_one len).symm⟩, h⟩, ?_⟩
  rintro n ⟨⟨k, rfl⟩, -⟩
  exact Nat.le_mul_of_pos_right _ (Nat.two_pow_pos k)

theorem isLeast_spareSizes_double {len : Nat} (hfull : (len - 1) * W.bits ≤ total)
    (hspare : total < (len * 2 - 1) * W.bits) : IsLeast (spareSizes W len total) (len * 2) := by
  refine ⟨⟨⟨1, rfl⟩, hspare⟩, ?_⟩
  rintro n ⟨⟨k, rfl⟩, hn⟩
  cases k with
  | zero =>
    rw [Nat.pow_zero, Nat.mul_one] at hn
    omega
  | succ k =>
    rw [Nat.pow_succ, Nat.mul_comm (2 ^ k), ← Nat.mul_assoc]
    exact Nat.le_mul_of_pos_right _ (Nat.two_pow_pos k)

/-- Growing step by step, each time no further than needed, leads no further than growing once. -/
theorem isLeast_spareSizes_trans {len n n' total' : Nat} (h : IsLeast (spareSizes W len total) n)
    (hle : total ≤ total') (h' : IsLeast (spareSizes W n total') n') :
    IsLeast (spareSizes W len total') n' := by
  obtain ⟨⟨⟨k, rfl⟩, -⟩, hleast⟩ := h
  obtain ⟨⟨⟨k', rfl⟩, hspare⟩, hleast'⟩ := h'
  refine ⟨⟨⟨k + k', by rw [Nat.pow_add, Nat.mul_assoc]⟩, hspare⟩, ?_⟩
  rintro m ⟨⟨j, rfl⟩, hm⟩
  have hlen : 0 < len := by
    refine Nat.pos_of_ne_zero fun h0 => ?_
    rw [h0, Nat.zero_mul, Nat.zero_sub, Nat.zero_mul] at hm
    exact Nat.not_lt_zero _ hm
  have hmul : len * 2 ^ k ≤ len * 2 ^ j := hleast ⟨⟨j, rfl⟩, Nat.lt_of_le_of_lt hle hm⟩
  have hkj : k ≤ j :=
    (Nat.pow_le_pow_iff_right Nat.one_lt_two).1 (Nat.le_of_mul_le_mul_left hmul hlen)
  refine hleast' ⟨⟨j - k, ?_⟩, hm⟩
  rw [Nat.mul_assoc, ← Nat.pow_add, Nat.add_sub_cancel' hkj]

theorem size_storage_grownFor (b : BitBuffer W) (count : Nat) :
    (b.grownFor count).storage.size =
      b.storage.size * 2 ^ b.growthShift (b.position + count) := by
  rw [grownFor]
  split
  · rename_i h
    rw [h, Nat.pow_zero, Nat.mul_one]
  · rw [size_storage_enlarge, Nat.shiftLeft_eq]

theorem size_grownFor_pos (hsize : 2 ≤ b.storage.size) (count : Nat) :
    0 < (b.grownFor count).storage.size := by
  rw [size_storage_grownFor]
  exact Nat.mul_pos (Nat.lt_of_lt_of_le Nat.two_pos hsize) (Nat.two_pow_pos _)

theorem position_grownFor (b : BitBuffer W) (count : Nat) :
    (b.grownFor count).position = b.position := by
  rw [grownFor]
  split
  · rfl
  · exact b.position_enlarge _

/-- Growth before a write of `count` bits leads to the least size that holds them. -/
theorem isLeast_grownFor (hsize : 2 ≤ b.storage.size) (count : Nat) :
    IsLeast (spareSizes W b.storage.size (b.position + count)) (b.grownFor count).storage.size := by
  obtain ⟨hmargin, hleast⟩ := isLeast_growthShift hsize (b.position + count)
  rw [size_storage_grownFor]
  refine ⟨⟨⟨_, rfl⟩, keepsMargin_iff.1 hmargin⟩, ?_⟩
  rintro n ⟨⟨k, rfl⟩, hn⟩
  exact Nat.mul_le_mul_left _ (Nat.pow_le_pow_right Nat.two_pos (hleast (keepsMargin_iff.2 hn)))

/-- A buffer that grew for a write has room for it, wherever the cursor was. -/
theorem hasRoomFor_grownFor (hsize : 2 ≤ b.storage.size) (count : Nat) :
    (b.grownFor count).HasRoomFor count := by
  obtain ⟨⟨-, hspare⟩, -⟩ := isLeast_grownFor hsize count
  have hceil := Bits.ceilDiv_mul_lt count W.bits_pos
  rw [Nat.sub_mul, Nat.one_mul] at hspare
  rw [hasRoomFor_iff, position_grownFor]
  omega

/-- An append doubles the storage only if it has to. -/
theorem Sound.isLeast_append? (hs : b.Sound) (hn : b.nearEnd = false) {word : Word W} {count : Nat}
    (hf : word.Fits count) :
    ∃ b', b.append? word count = some b' ∧ b'.Sound ∧
      b'.content = b.content ++ word.toBits.take count ∧
      IsLeast (spareSizes W b.storage.size b'.position) b'.storage.size := by
  obtain ⟨b', hb, hs', hn', hc⟩ := hs.append?_eq hn hf
  refine ⟨b', hb, hs', hc, ?_⟩
  rw [append?, write?, if_pos (hasRoom_of_nearEnd hn), Option.map_some, Option.some.injEq] at hb
  have hspare := nearEnd_eq_false_iff.1 hn'
  by_cases hnear : (b.put word count).nearEnd = true
  · rw [if_pos hnear] at hb
    have hfull := mt nearEnd_eq_false_iff.2 (ne_false_of_eq_true hnear)
    rw [← hb, size_storage_enlarge, position_enlarge, size_storage_put, position_put,
      Nat.shiftLeft_eq, Nat.pow_one] at hspare ⊢
    rw [size_storage_put, position_put] at hfull
    exact isLeast_spareSizes_double (Nat.not_lt.1 hfull) hspare
  · rw [if_neg hnear] at hb
    have hsize : b'.storage.size = b.storage.size := by rw [← hb, size_storage_put]
    rw [hsize] at hspare ⊢
    exact isLeast_spareSizes_self hspare

end BitBuffer
end BitTransducer
