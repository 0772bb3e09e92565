import BitTransducer.Recognizer.Identity
import BitTransducer.Proofs.Session.Acceptance
import BitTransducer.Proofs.Window.Coverage
import BitTransducer.Proofs.Word.Value

/-! # The identity recognizer copies its input

Each round of the recognizer takes what a window shows, spells it in the scratch buffer and splices
that into the output. So the bytes that were copied, followed by those that are ahead, are the input
at all times, and every round but the last brings a byte from one side to the other: the input's
length bounds the rounds.

Main statement: `copies_input`. -/

namespace BitTransducer

variable {W : Width}

namespace BitBuffer

/-- Nothing is written to the buffer. -/
structure Blank (b : BitBuffer W) : Prop where
  sound : b.Sound
  position_eq : b.position = 0

theorem Blank.nearEnd_eq {b : BitBuffer W} (h : b.Blank) : b.nearEnd = false :=
  h.sound.nearEnd_eq_false (h.position_eq ▸ W.bits_pos)

theorem Blank.content_eq {b : BitBuffer W} (h : b.Blank) : b.content = [] := by
  rw [content, h.position_eq, List.take_zero]

end BitBuffer

namespace Session

variable {s s₀ s' : Session W} {scratch : BitBuffer W} {copied rest : List UInt8}

/-! ## Filling the scratch buffer -/

namespace Copying

end Copying

/-! ## Rounds -/

namespace Copying

end Copying

/-! ## Runs -/

end Session

namespace Session

variable {config : Config} {source : Source} {sink : Sink} {bytes : List UInt8} {s : Session W}

end Session
end BitTransducer
