/-! # Sinks

A sink takes bytes, in as many requests as it likes to be asked: at each request it accepts some
of the bytes, is interrupted, or fails, as its schedule says; once the schedule is used up it
accepts everything. `Sink.writeAll` asks again until all bytes are accepted. The journal keeps what
was delivered and how flushes went, so that the bytes received and the number of requests are
read off it. -/

namespace BitTransducer

/-- What a sink does when it is asked to take bytes. -/
inductive Acceptance
  /-- Takes as many of the bytes, or all of them if there are fewer. -/
  | take (count : Nat)
  /-- Takes none and wants to be asked again. -/
  | interrupted
  /-- Takes none and reports a failure. -/
  | failure (text : String)
deriving DecidableEq

/-- Something that happened at a sink. -/
inductive SinkEntry
  /-- Bytes were offered in `requests` requests, and the first `accepted` of them were taken. -/
  | delivery (offered : List UInt8) (accepted requests : Nat)
  /-- The sink was asked to flush, and did so or failed. -/
  | flush (done : Bool)
deriving DecidableEq

/-- A destination of bytes: what it will do when asked to take bytes and to flush, and what
happened so far. A flush fails with the next text of `flushes`, if that is one. -/
structure Sink where
  acceptances : List Acceptance
  flushes : List (Option String)
  journal : Array SinkEntry

namespace SinkEntry

/-- The bytes that an entry brought to the sink. -/
def received : SinkEntry → List UInt8
  | delivery offered accepted _ => offered.take accepted
  | flush _ => []

/-- Whether an entry is a request to flush. -/
def isFlush : SinkEntry → Bool
  | delivery .. => false
  | flush _ => true

end SinkEntry

namespace Sink

/-- A sink that will behave as scheduled. -/
def scheduled (acceptances : List Acceptance) (flushes : List (Option String)) : Sink :=
  { acceptances, flushes, journal := #[] }

/-- A sink that accepts everything. -/
def accepting : Sink := scheduled [] []

/-- The entries after the first `start`, as a list. -/
def entriesFrom (s : Sink) (start : Nat) : List SinkEntry := (s.journal.extract start).toList

/-- The bytes that the sink took after the first `start` entries of its journal. -/
def receivedFrom (s : Sink) (start : Nat) : List UInt8 :=
  (s.entriesFrom start).flatMap SinkEntry.received

/-- All bytes that the sink took. -/
def received (s : Sink) : List UInt8 := s.receivedFrom 0

/-- How an offer of bytes ended: the text of a failure if it failed, the bytes accepted, the
requests made, and the schedule that is left. -/
structure Offer where
  failure? : Option String
  accepted : Nat
  requests : Nat
  left : List Acceptance

/-- Offers `count` bytes until all are accepted or a request fails. A request at which none is
accepted fails too. -/
def offer : List Acceptance → (count : Nat) → Offer
  | schedule, 0 => { failure? := none, accepted := 0, requests := 0, left := schedule }
  | [], count => { failure? := none, accepted := count, requests := 1, left := [] }
  | .interrupted :: schedule, count =>
    let next := offer schedule count
    { next with requests := next.requests + 1 }
  | .failure text :: schedule, _ =>
    { failure? := some text, accepted := 0, requests := 1, left := schedule }
  | .take n :: schedule, count =>
    let taken := min n count
    if taken = 0 then
      { failure? := some "failed to write whole buffer", accepted := 0, requests := 1,
        left := schedule }
    else
      let next := offer schedule (count - taken)
      { next with accepted := next.accepted + taken, requests := next.requests + 1 }

/-- Delivers bytes, all of them unless a request fails with the text of the error. Nothing is asked
of the sink for no bytes. -/
def writeAll (bytes : List UInt8) : EStateM String Sink Unit := fun s =>
  let ⟨acceptances, flushes, journal⟩ := s
  if bytes.isEmpty then .ok () { acceptances, flushes, journal }
  else
    let o := offer acceptances bytes.length
    let s := { acceptances := o.left, flushes,
               journal := journal.push (.delivery bytes o.accepted o.requests) }
    match o.failure? with
    | none => .ok () s
    | some text => .error text s

/-- Asks the sink to flush. -/
def flush : EStateM String Sink Unit := fun s =>
  let ⟨acceptances, flushes, journal⟩ := s
  match flushes with
  | some text :: flushes =>
    .error text { acceptances, flushes, journal := journal.push (.flush false) }
  | flushes =>
    .ok () { acceptances, flushes := flushes.drop 1, journal := journal.push (.flush true) }

end Sink
end BitTransducer
