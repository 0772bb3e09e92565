import BitTransducer.Word

/-! # Shifts by less than the width

A machine shifts a number of `n` bits by less than `n` places; what a shift by more does is not
defined. `shiftLeft?` and `shiftRight?` have no result then, while shifts of bit vectors bring in
zeros however far they go. Where a mask or an alignment would take a shift by a whole word, it is
found without one: that is what `Word.highMask?_eq` and `Word.leftAlign?_eq` say. -/

namespace BitTransducer

variable {W : Width} {n : Nat}

def shiftLeft? (x : BitVec n) (places : Nat) : Option (BitVec n) :=
  if places < n then some (x <<< places) else none

def shiftRight? (x : BitVec n) (places : Nat) : Option (BitVec n) :=
  if places < n then some (x >>> places) else none

theorem shiftLeft?_eq (x : BitVec n) {places : Nat} (h : places < n) :
    shiftLeft? x places = some (x <<< places) := if_pos h

theorem shiftRight?_eq (x : BitVec n) {places : Nat} (h : places < n) :
    shiftRight? x places = some (x >>> places) := if_pos h

namespace Word

/-- The mask of the first `count` bits. -/
def highMask? (count : Nat) : Option (Word W) :=
  if count = 0 then some 0
  else if W.bits ≤ count then some (BitVec.allOnes W.bits)
  else shiftLeft? (BitVec.allOnes W.bits) (W.bits - count)

theorem highMask?_eq (count : Nat) :
    (highMask? count : Option (Word W)) = some (highMask count) := by
  rw [highMask?, highMask]
  split
  · rename_i h
    rw [h, Nat.sub_zero, BitVec.shiftLeft_eq_zero (Nat.le_refl _)]
    rfl
  · split
    · rename_i h
      rw [Nat.sub_eq_zero_of_le h, BitVec.shiftLeft_zero]
    · exact shiftLeft?_eq _ (by omega)

/-- The low `count` bits of a number of 64 bits, moved to the top of a word over zeros. -/
def leftAlign? (value : BitVec 64) (count : Nat) : Option (Word W) :=
  if count = 0 then some 0 else shiftLeft? (value.setWidth W.bits) (W.bits - count)

theorem leftAlign?_eq (value : BitVec 64) (count : Nat) :
    (leftAlign? value count : Option (Word W)) = some (leftAlign value.toNat count) := by
  have hW := W.bits_pos
  rw [leftAlign?, leftAlign, ofValue, BitVec.ofNat_toNat]
  split
  · rename_i h
    rw [h, Nat.sub_zero, BitVec.shiftLeft_eq_zero (Nat.le_refl _)]
    rfl
  · exact shiftLeft?_eq _ (by omega)

end Word
end BitTransducer
