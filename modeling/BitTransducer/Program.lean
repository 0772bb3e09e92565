import BitTransducer.BitBuffer.Growth
import BitTransducer.Config
import BitTransducer.Event

/-! # Programs over a session

A program is a tree of requests to the session it runs in: each node asks for one thing and goes on
as the answer says. A tree makes finitely many requests on every path, each chosen from the answers
before, and sees nothing of the session but the answers. Programs form a monad, whose `bind` grafts
trees.

A recognizer is a program that ends with a verdict on the input. It may depend on a number of
rounds, which is how often it repeats something at most: nothing else bounds a program that goes on
until a request fails. -/

namespace BitTransducer

/-- What a program sees of the input window. -/
structure WindowView where
  available : Nat
  cursor : Int
  lastRead : Nat
  count : Nat
deriving DecidableEq

/-- What a program sees of the output channel. -/
structure ChannelView where
  position : Nat
  isAligned : Bool
  bytesWritten : Nat
deriving DecidableEq

/-- An entry that a program leaves in the session's transcript. -/
inductive Report
  | flag (value : Bool)
  | number (value : Nat)
  | numbers (values : List Int)
deriving DecidableEq

/-- A request to the session. -/
inductive Request (W : Width)
  | refill (minimum maximum : Nat)
  | consume (count : Nat)
  | startsWith (literal : List UInt8)
  | peek (count : Nat)
  | window
  | write (word : Word W) (count : Nat)
  | writeWords (words : List (Word W)) (count : Nat)
  | writeWordsDirect (words : List (Word W)) (count : Nat)
  | writeBuffer (source : BitBuffer W)
  | flush
  | pad
  | finish
  | flushSink
  | channel
  /-- The buffered bits of the output. -/
  | buffered
  | config
  | note (event : Event)
  | report (entry : Report)
  /-- Ends the run: the program itself broke a contract. -/
  | violate (cause : Violation)

/-- The type of the answers to a request. -/
def Request.Answer {W : Width} : Request W → Type
  | refill .. => Bool
  | consume _ => Unit
  | startsWith _ => Bool
  | peek _ => List UInt8
  | window => WindowView
  | write .. => Unit
  | writeWords .. => Unit
  | writeWordsDirect .. => Unit
  | writeBuffer _ => Unit
  | flush => Unit
  | pad => Unit
  | finish => Unit
  | flushSink => Unit
  | channel => ChannelView
  | buffered => BitBuffer W
  | config => Config
  | note _ => Unit
  | report _ => Unit
  | violate _ => Empty

/-- A tree of requests with results at its leaves. -/
inductive Program (W : Width) (α : Type)
  | done (result : α)
  | ask (request : Request W) (next : request.Answer → Program W α)

/-- What a recognizer says of the input. -/
inductive Verdict
  | accept
  | fail
deriving DecidableEq

/-- A program that judges the input, for every number of rounds that it may repeat something. -/
abbrev Recognizer (W : Width) := (patience : Nat) → Program W Verdict

namespace Program

variable {W : Width} {α β σ : Type}

/-- Goes on with `f` at the leaves. -/
def bind : Program W α → (α → Program W β) → Program W β
  | done result, f => f result
  | ask request next, f => ask request fun answer => (next answer).bind f

instance : Monad (Program W) where
  pure := done
  bind := bind

private theorem bind_done (p : Program W α) : p.bind done = p := by
  induction p with
  | done result => rfl
  | ask request next ih => exact congrArg (ask request) (funext ih)

private theorem bind_bind {γ : Type} (p : Program W α) (f : α → Program W β)
    (g : β → Program W γ) : (p.bind f).bind g = p.bind fun a => (f a).bind g := by
  induction p with
  | done result => rfl
  | ask request next ih => exact congrArg (ask request) (funext ih)

instance : LawfulMonad (Program W) :=
  LawfulMonad.mk' (Program W) bind_done (fun _ _ => rfl) bind_bind

/-- The program that makes one request. -/
def request (r : Request W) : Program W r.Answer := ask r done

def refill (minimum maximum : Nat) : Program W Bool := request (.refill minimum maximum)

def consume (count : Nat) : Program W Unit := request (.consume count)

def startsWith (literal : List UInt8) : Program W Bool := request (.startsWith literal)

def peek (count : Nat) : Program W (List UInt8) := request (.peek count)

def config : Program W Config := request .config

/-- Ends the run with a violation. -/
def violate (cause : Violation) : Program W α := ask (.violate cause) nofun

/-- Writes the low `count` bits of a number. -/
def writeValue (value count : Nat) : Program W Unit :=
  request (.write (Word.leftAlign value count) count)

/-- An empty scratch buffer of the configured capacity. -/
def scratch : Program W (BitBuffer W) := return .withCapacity (← config).scratchSize

/-- Appends the low `count` bits of a number to a scratch buffer. -/
def append (scratch : BitBuffer W) (value count : Nat) : Program W (BitBuffer W) := do
  let before := scratch.size
  match scratch.append? (Word.leftAlign value count) count with
  | none => violate .outOfBounds
  | some scratch =>
    (Event.ofSizes before scratch.size).forM fun e => request (.note e)
    return scratch

/-- Appends the low `count` bits of each byte to a scratch buffer. -/
def appendBytes (scratch : BitBuffer W) (count : Nat) : List UInt8 → Program W (BitBuffer W)
  | [] => return scratch
  | byte :: bytes => do appendBytes (← append scratch byte.toNat count) count bytes

/-- Writes a scratch buffer to the output; what is left is the buffer cleared. -/
def splice (scratch : BitBuffer W) : Program W (BitBuffer W) := do
  request (.writeBuffer scratch)
  return scratch.reset

/-- Repeats `round` from state `s` until it ends with a result, `limit` times at most. -/
def loop (round : σ → Program W (σ ⊕ α)) : (limit : Nat) → (s : σ) → Program W α
  | 0, _ => violate .stalled
  | limit + 1, s => do
    match ← round s with
    | .inl s => loop round limit s
    | .inr result => return result

end Program
end BitTransducer
