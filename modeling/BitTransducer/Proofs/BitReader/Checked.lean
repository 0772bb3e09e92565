import Mathlib.Tactic.IntervalCases
import BitTransducer.BitReader
import BitTransducer.Proofs.Outcome
import BitTransducer.Proofs.Word.Shift

/-! # Reading in numbers of fixed width

What a reader computes, as a machine computes it: bytes of 8 bits, a mask of 16 bits that is cut
down to 8, and a number of 64 bits that the bits read are shifted into. Bytes have to exist, and
shifts have to be by less than the width. No bits are lost on the way, so that all reads come to the
same as with natural numbers.

Main statements: `gatherChecked?_eq`, `readBitChecked_eq`, `readBitsChecked_eq` and
`readWordChecked_eq`. -/

namespace BitTransducer
namespace BitReader

/-- The low `count` bits set, of eight. -/
def lowMask? (count : Nat) : Option (BitVec 8) := do
  let bound ← shiftLeft? (1 : BitVec 16) count
  return (bound - 1).setWidth 8

/-- `value` followed by the `count` bits from `position` on, as a number of 64 bits. -/
def gatherChecked? (data : Array UInt8) (position count : Nat) (value : BitVec 64) :
    Option (BitVec 64) :=
  if count = 0 then some value
  else do
    let room := 8 - position % 8
    let taken := min count room
    let byte ← data[position / 8]?
    let mask ← lowMask? taken
    let head ← shiftRight? byte.toBitVec (room - taken)
    let shifted ← shiftLeft? value taken
    gatherChecked? data (position + taken) (count - taken)
      (shifted ||| (head &&& mask).setWidth 64)
termination_by count

theorem lowMask?_eq {count : Nat} (h : count ≤ 8) :
    lowMask? count = some (BitVec.ofNat 8 (2 ^ count - 1)) := by
  rw [lowMask?, shiftLeft?_eq _ (by omega)]
  interval_cases count <;> rfl

theorem toNat_and_lowMask (byte : BitVec 8) {count : Nat} (h : count ≤ 8) :
    (byte &&& BitVec.ofNat 8 (2 ^ count - 1)).toNat = byte.toNat % 1 <<< count := by
  have hpow : 2 ^ count ≤ 2 ^ 8 := Nat.pow_le_pow_right Nat.two_pos h
  have hpos := Nat.two_pow_pos count
  rw [BitVec.toNat_and, BitVec.toNat_ofNat, Nat.mod_eq_of_lt (by omega),
    Nat.and_two_pow_sub_one_eq_mod, Nat.one_shiftLeft]

theorem shiftLeft_add_lt {a b n count : Nat} (ha : a < 2 ^ n) (hb : b < 2 ^ count) :
    a <<< count + b < 2 ^ (n + count) := by
  rw [Nat.shiftLeft_eq, Nat.pow_add]
  calc a * 2 ^ count + b < a * 2 ^ count + 2 ^ count := Nat.add_lt_add_left hb _
    _ = (a + 1) * 2 ^ count := (Nat.succ_mul ..).symm
    _ ≤ 2 ^ n * 2 ^ count := Nat.mul_le_mul_right _ ha

/-- A number of 64 bits that has room for more takes them in. -/
theorem toNat_shiftLeft_or {value : BitVec 64} {bits : BitVec 8} {count : Nat}
    (hlt : value.toNat <<< count + bits.toNat < 2 ^ 64) (hb : bits.toNat < 2 ^ count) :
    (value <<< count ||| bits.setWidth 64).toNat = value.toNat <<< count + bits.toNat := by
  have hshift := Nat.lt_of_le_of_lt (Nat.le_add_right ..) hlt
  have hbits := Nat.lt_of_le_of_lt (Nat.le_add_left ..) hlt
  rw [BitVec.toNat_or, BitVec.toNat_shiftLeft, Nat.mod_eq_of_lt hshift, BitVec.toNat_setWidth,
    Nat.mod_eq_of_lt hbits, Nat.shiftLeft_add_eq_or_of_lt hb]

/-- No bit is lost on the way as long as there are no more than 64. -/
theorem gatherChecked?_eq (data : Array UInt8) (position count : Nat) (value : BitVec 64)
    (hc : count ≤ 64) (hv : value.toNat < 2 ^ (64 - count)) :
    (gatherChecked? data position count value).map BitVec.toNat =
      gather? data position count value.toNat := by
  fun_induction gatherChecked? data position count value with
  | case1 position value =>
    rw [gather?, if_pos rfl, Option.map_some]
  | case2 position count value h0 room taken ih =>
    have htaken : taken ≤ count := Nat.min_le_left ..
    have hroom : taken ≤ room := Nat.min_le_right ..
    have hroom8 : room ≤ 8 := Nat.sub_le ..
    rw [gather?, if_neg h0]
    cases hbyte : data[position / 8]? with
    | none => rfl
    | some byte =>
      have hshift : room - taken < 8 := by
        have hmod := Nat.mod_lt position (by decide : 0 < 8)
        omega
      have htaken8 : taken ≤ 8 := Nat.le_trans hroom hroom8
      simp only [lowMask?_eq htaken8, shiftRight?_eq byte.toBitVec hshift,
        shiftLeft?_eq value (show taken < 64 by omega), Option.bind_eq_bind, Option.bind_some]
      have hbits : (byte.toBitVec >>> (room - taken) &&& BitVec.ofNat 8 (2 ^ taken - 1)).toNat =
          byte.toNat >>> (room - taken) % 1 <<< taken := by
        rw [toNat_and_lowMask _ htaken8, BitVec.toNat_ushiftRight, UInt8.toNat_toBitVec]
      have hlt : (byte.toBitVec >>> (room - taken) &&& BitVec.ofNat 8 (2 ^ taken - 1)).toNat <
          2 ^ taken := by
        rw [hbits, Nat.one_shiftLeft]
        exact Nat.mod_lt _ (Nat.two_pow_pos taken)
      -- what is left to be read stays free at the top of the number
      have hfree := shiftLeft_add_lt hv hlt
      have hpow : 2 ^ (64 - count + taken) ≤ 2 ^ 64 :=
        Nat.pow_le_pow_right Nat.two_pos (by omega)
      have happend := toNat_shiftLeft_or (Nat.lt_of_lt_of_le hfree hpow) hlt
      have hleft : 64 - (count - taken) = 64 - count + taken := by omega
      rw [ih _ _ _ (by omega) (by rwa [happend, hleft]), happend, hbits]

/-! ## Reads -/

def readBitChecked : Action (BitVec 8) := do
  demand 1
  let r ← get
  let byte ← orBreak r.data[r.position / 8]?
  let head ← orBreak (shiftRight? byte.toBitVec (7 - r.position % 8))
  advance 1
  return head &&& 1

def readBitsChecked (count : Nat) : Action (BitVec 64) := do
  if count = 0 ∨ 64 < count then throw (.error (.invalidLength count))
  demand count
  let r ← get
  let value ← orBreak (gatherChecked? r.data r.position count 0)
  advance count
  return value

def readWordChecked (W : Width) (count : Nat) : Action (Word W) := do
  if W.bits < count then throw (.error (.invalidLength count))
  let value ← readBitsChecked count
  orBreak (Word.leftAlign? value count)

theorem readBitChecked_eq : BitVec.toNat <$> readBitChecked = readBit := by
  simp only [readBitChecked, readBit, map_bind]
  congr 1
  funext _
  congr 1
  funext r
  cases r.data[r.position / 8]? with
  | none => rfl
  | some byte =>
    have hshift := shiftRight?_eq byte.toBitVec (show 7 - r.position % 8 < 8 by omega)
    have hbit : (byte.toBitVec >>> (7 - r.position % 8) &&& 1).toNat =
        byte.toNat >>> (7 - r.position % 8) % 2 := by
      rw [BitVec.toNat_and, BitVec.toNat_ushiftRight, UInt8.toNat_toBitVec]
      exact Nat.and_one_is_mod _
    simp only [orBreak, hshift, pure_bind, map_pure, hbit]

theorem readBitsChecked_eq (count : Nat) :
    BitVec.toNat <$> readBitsChecked count = readBits count := by
  by_cases hc : count = 0 ∨ 64 < count
  · rw [readBitsChecked, readBits, if_pos hc, if_pos hc]
    rfl
  rw [readBitsChecked, readBits, if_neg hc, if_neg hc, take]
  simp only [map_bind]
  congr 1
  funext _
  congr 1
  funext r
  have hgather : (gatherChecked? r.data r.position count 0).map BitVec.toNat =
      gather? r.data r.position count 0 :=
    gatherChecked?_eq r.data r.position count 0 (by omega) (Nat.two_pow_pos _)
  rw [← hgather]
  cases gatherChecked? r.data r.position count 0 with
  | none => rfl
  | some value => simp only [orBreak, pure_bind, map_pure, Option.map_some]

theorem readWordChecked_eq (W : Width) (count : Nat) :
    readWordChecked W count = readWord W count := by
  by_cases hc : W.bits < count
  · rw [readWordChecked, readWord, if_pos hc, if_pos hc]
    rfl
  rw [readWordChecked, readWord, if_neg hc, if_neg hc, ← readBitsChecked_eq]
  simp only [Word.leftAlign?_eq, orBreak, bind_map_left]

end BitReader
end BitTransducer
