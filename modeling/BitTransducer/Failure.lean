/-! # Failures

An operation ends in one of three ways: with a result, with an error that its caller is told
about, or with a violation, which says that the caller broke the operation's contract. A violation
ends everything that follows; an error leaves a state to go on from. `Failure` joins the two, and
each cause has its text in one `message` function. Texts that a command prints are given in the
`pieces` that they are put together from, each of which is written by itself. -/

namespace BitTransducer

/-- Sizes that no run can be set up with. -/
inductive ConfigError
  | zeroBlockSize
  | notWordMultiple (name : String) (size wordBytes : Nat)
  | tooSmall (name : String) (size minimum : Nat)
deriving DecidableEq

/-- Why a run ended without a verdict. The texts are those of the failing sink or source. -/
inductive StreamError
  | write (text : String)
  | read (text : String)
  | config (cause : ConfigError)
deriving DecidableEq

/-- Why bits could not be read back. -/
inductive ReadError
  | underflow
  | invalidLength (count : Nat)
deriving DecidableEq

/-- A broken contract. -/
inductive Violation
  /-- A window was opened with blocks of no bytes. -/
  | zeroBlock
  /-- A refill asked for a minimum above its maximum. -/
  | lookaheadOrder (minimum maximum : Nat)
  /-- A refill asked for more bytes than a block holds. -/
  | lookaheadTooLong (maximum block : Nat)
  /-- More bytes were consumed than were available. -/
  | overconsumed (count available : Nat)
  /-- A word, bit or byte past the end of its storage was touched. -/
  | outOfBounds
  /-- A number, or the size of a storage, left the range of the machine. -/
  | overflow
  /-- A loop went on without progress. -/
  | stalled
deriving DecidableEq

/-- An error of the operation, or a violation of its contract. -/
inductive Failure (ε : Type)
  | error (cause : ε)
  | violation (cause : Violation)
deriving DecidableEq

namespace ConfigError

/-- The pieces of the text of an error. -/
def pieces : ConfigError → List String
  | zeroBlockSize => ["input block size must be non-zero"]
  | notWordMultiple name size wordBytes =>
    [name, " (", toString size, " bytes) must be a multiple of the ", toString wordBytes,
      "-byte word size"]
  | tooSmall name size minimum =>
    [name, " (", toString size, " bytes) must be at least ", toString minimum, " bytes"]

/-- The text of an error. -/
def message (e : ConfigError) : String := String.join e.pieces

end ConfigError

namespace StreamError

/-- What failed. -/
def subject : StreamError → String
  | write _ => "error writing to output: "
  | read _ => "error reading from input: "
  | config _ => "invalid configuration: "

/-- The pieces of the text of the failure that the error reports. -/
def causePieces : StreamError → List String
  | write text => [text]
  | read text => [text]
  | config cause => cause.pieces

/-- The text of the failure that the error reports. -/
def cause (e : StreamError) : String := String.join e.causePieces

/-- The pieces of the text of an error: what failed, and those of the text of that failure. -/
def pieces (e : StreamError) : List String := e.subject :: e.causePieces

/-- The text of an error. -/
def message (e : StreamError) : String := String.join e.pieces

theorem cause_config (cause : ConfigError) : (config cause).cause = cause.message := rfl

/-- The text says what failed, and then why. -/
theorem message_eq (e : StreamError) : e.message = e.subject ++ e.cause := String.join_cons

end StreamError

namespace ReadError

/-- The text of an error. -/
def message : ReadError → String
  | underflow => "not enough bits remaining in input"
  | invalidLength count => s!"invalid bit count: {count}"

end ReadError

namespace Violation

/-- The text of a violation, for those that say more than what ran out of range. -/
def message? : Violation → Option String
  | zeroBlock => some "input block size must be non-zero"
  | lookaheadOrder minimum maximum =>
    some s!"minimum lookahead {minimum} exceeds maximum {maximum}"
  | lookaheadTooLong maximum block =>
    some s!"lookahead of {maximum} bytes exceeds block size {block}"
  | overconsumed count available =>
    some s!"consumed {count} bytes with only {available} available"
  | outOfBounds => none
  | overflow => none
  | stalled => none

end Violation
end BitTransducer
