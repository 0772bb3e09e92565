import BitTransducer.Program

/-! # The identity recognizer

Accepts every input and writes it unchanged: the bytes of one lookahead window after another are
gathered in a scratch buffer and spliced into the output. The scratch buffer is kept for a next
run. -/

namespace BitTransducer
namespace Recognizer

/-- Bytes looked at in one round. -/
def lookaheadSize : Nat := 256

/-- Copies the input through a scratch buffer, the kept one if there is one, in `patience` rounds
at most; the verdict and the scratch buffer to keep. -/
def identityKeeping {W : Width} (kept : Option (BitBuffer W)) (patience : Nat) :
    Program W (Verdict × BitBuffer W) := do
  let scratch ← match kept with
    | some scratch => pure scratch
    | none => Program.scratch
  Program.loop (fun scratch => do
    if ← Program.refill 1 lookaheadSize then
      let bytes ← Program.peek lookaheadSize
      let scratch ← Program.splice (← Program.appendBytes scratch 8 bytes)
      Program.consume bytes.length
      return .inl scratch
    else return .inr (.accept, scratch)) patience scratch

/-- Copies the input through a fresh scratch buffer. -/
def identity {W : Width} : Recognizer W := fun patience =>
  return (← identityKeeping none patience).1

end Recognizer
end BitTransducer
