import BitTransducer.Channel
import BitTransducer.Program
import BitTransducer.Window

/-! # Sessions

A session joins an input window and an output channel, carries out the requests of programs, and
keeps the log of what happened on either side. `Session.run` lets a recognizer judge the input and
concludes: an accepted input completes the output, a mismatch leaves the buffered bits where they
are and only has the sink flushed.

A recognizer that repeats itself is given `Session.patience` rounds. The bytes that are not consumed
and the scheduled events of the source and the sink are the session's `resources`, which requests
use up and none adds to; without scheduled events a sink never fails. So a recognizer that does the
same in rounds that find the same input does not end at all if its patience runs out.

A session goes on after errors: whatever state a run leaves is the next run's start. -/

namespace BitTransducer

/-- How a run ended. -/
inductive Outcome
  | accept
  /-- The input did not match after `position` bytes. -/
  | fail (position : Nat)
deriving DecidableEq

/-- The state that a program works on. -/
structure Session (W : Width) where
  input : Window
  output : Channel W
  config : Config
  /-- What happened so far, oldest first. -/
  log : Array Event
  /-- The reports of the running program, oldest first. -/
  transcript : Array Report

namespace Session

variable {W : Width} {α : Type}

/-- Steps of a session fail with a stream error or a violation. -/
abbrev Action (W : Width) (α : Type) := EStateM (Failure StreamError) (Session W) α

/-- A session between a source and a sink, if the sizes are valid. -/
def openWith (W : Width) (config : Config) (source : Source) (sink : Sink) :
    Except StreamError (Session W) :=
  match config.validate W with
  | .error cause => .error (.config cause)
  | .ok () => .ok {
      input := .ofBlock source config.blockSize
      output := .ofSink sink config.outputSize
      config
      log := #[]
      transcript := #[] }

/-- Moves the events of both sides to the log. -/
def collect (s : Session W) : Session W :=
  let ⟨input, output, config, log, transcript⟩ := s
  let ⟨source, buffer, block, start, stop, count, inputEvents⟩ := input
  let ⟨bits, sink, written, outputEvents⟩ := output
  { input := { source, buffer, block, start, stop, count, events := #[] }
    output := { buffer := bits, sink, bytesWritten := written, events := #[] }
    config
    log := log ++ inputEvents ++ outputEvents
    transcript }

/-- A step of the input window. -/
def onInput (step : Window.Action α) : Action W α := fun s =>
  let ⟨input, output, config, log, transcript⟩ := s
  match step input with
  | .ok a input => .ok a (collect { input, output, config, log, transcript })
  | .error e input => .error e (collect { input, output, config, log, transcript })

/-- A step of the output channel. -/
def onOutput (step : Channel.Action W α) : Action W α := fun s =>
  let ⟨input, output, config, log, transcript⟩ := s
  match step output with
  | .ok a output => .ok a (collect { input, output, config, log, transcript })
  | .error e output => .error e (collect { input, output, config, log, transcript })

/-- Adds an event to the log. -/
def note (e : Event) : Action W Unit := modify fun s => { s with log := s.log.push e }

/-- The window as programs see it. -/
def windowView (s : Session W) : WindowView :=
  { available := s.input.available, cursor := s.input.cursor, lastRead := s.input.lastRead,
    count := s.input.count }

/-- The channel as programs see it. -/
def channelView (s : Session W) : ChannelView :=
  { position := s.output.buffer.position, isAligned := s.output.buffer.isAligned,
    bytesWritten := s.output.bytesWritten }

/-- What requests use up: the scheduled events of either side, and the bytes that are not consumed.
A byte counts twice until it is read. -/
def resources (s : Session W) : Nat :=
  s.input.source.arrivals.length + 2 * s.input.source.pending.length + s.input.available
    + s.output.sink.acceptances.length + s.output.sink.flushes.length

/-- The rounds that a recognizer is given. Between two rounds that use up resources the output can
take a bit at a time until its storage is full; when that is delivered and nothing was used up, or
when not even a bit is written, the rounds that follow go on for ever. -/
def patience (s : Session W) : Nat :=
  (s.resources + 1) * (s.output.buffer.storage.size * W.bits + 1) + 1

/-- Carries out a request. -/
def answer : (request : Request W) → Action W request.Answer
  | .refill minimum maximum => onInput (Window.refill minimum maximum)
  | .consume count => onInput (Window.consume count)
  | .startsWith literal => fun s => .ok (s.input.startsWith literal) s
  | .peek count => fun s => .ok (s.input.peek count) s
  | .window => fun s => .ok s.windowView s
  | .write word count => onOutput (Channel.write word count)
  | .writeWords words count => onOutput (Channel.writeWords words count)
  | .writeWordsDirect words count => onOutput (Channel.writeWordsDirect words count)
  | .writeBuffer source => onOutput (Channel.writeBuffer source)
  | .flush => onOutput Channel.flush
  | .pad => onOutput Channel.pad
  | .finish => onOutput Channel.finish
  | .flushSink => onOutput Channel.flushSink
  | .channel => fun s => .ok s.channelView s
  | .buffered => fun s => .ok s.output.buffer s
  | .config => fun s => .ok s.config s
  | .note e => note e
  | .report entry => modify fun s => { s with transcript := s.transcript.push entry }
  | .violate cause => throw (.violation cause)

/-- Carries out the requests of a program up to its result. -/
def perform : Program W α → Action W α
  | .done result => pure result
  | .ask request next => do perform (next (← answer request))

/-- What is done upon a verdict. -/
def conclude : Verdict → Action W Outcome
  | .accept => do
    onOutput Channel.finish
    let s ← get
    note (.accepted s.input.count s.output.bytesWritten)
    return .accept
  | .fail => do
    let position := (← get).input.count
    onOutput Channel.flushSink
    note (.mismatched position)
    return .fail position

/-- Lets a program judge the input, with a fresh transcript. -/
def judge (program : Program W Verdict) : Action W Outcome := do
  modify fun s => { s with transcript := #[] }
  conclude (← perform program)

/-- Lets a recognizer judge the input, with as much patience as the session has for it. -/
def run (recognizer : Recognizer W) : Action W Outcome := do
  judge (recognizer (← get).patience)

end Session
end BitTransducer
