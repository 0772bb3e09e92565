/-! # Bit strings

A bit stream is a list of Booleans, the first bit first. Bytes spell their bits with the most
significant bit first, and every container of this library is described by the bit string it
holds: `Bits.ofByte`, `Bits.ofBytes` are the views of the byte side.

Main statements: `Bits.length_ofByte`, `Bits.length_ofBytes` (a byte holds eight bits) and
`Bits.ofBytes_append`. -/

namespace BitTransducer
namespace Bits

/-- The eight bits of a byte, most significant first. -/
def ofByte (byte : UInt8) : List Bool := (List.range 8).map fun i => byte.toNat.testBit (7 - i)

/-- The bits of a byte string. -/
def ofBytes (bytes : List UInt8) : List Bool := bytes.flatMap ofByte

/-- The number that a bit string spells, most significant bit first. -/
def value (bits : List Bool) : Nat := bits.foldl (fun n b => 2 * n + b.toNat) 0

/-- The least number of units of size `unit` that hold `count` things. -/
def ceilDiv (count unit : Nat) : Nat := (count + unit - 1) / unit

/-- The bit string followed by the fewest zero bits that make its length a multiple of `unit`. -/
def padTo (unit : Nat) (bits : List Bool) : List Bool :=
  bits ++ List.replicate (ceilDiv bits.length unit * unit - bits.length) false

@[simp] theorem length_ofByte (byte : UInt8) : (ofByte byte).length = 8 := by simp [ofByte]

@[simp] theorem ofBytes_nil : ofBytes [] = [] := rfl

@[simp] theorem ofBytes_cons (byte : UInt8) (bytes : List UInt8) :
    ofBytes (byte :: bytes) = ofByte byte ++ ofBytes bytes := rfl

@[simp] theorem ofBytes_append (a b : List UInt8) : ofBytes (a ++ b) = ofBytes a ++ ofBytes b := by
  simp [ofBytes]

@[simp] theorem length_ofBytes (bytes : List UInt8) :
    (ofBytes bytes).length = 8 * bytes.length := by
  induction bytes with
  | nil => rfl
  | cons byte bytes ih => simp [ih]; omega

end Bits
end BitTransducer
