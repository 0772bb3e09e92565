import BitTransducer.Command.Arguments
import BitTransducer.Session

/-! # Carrying out a command

`Command.execute` lets a recognizer run between a source and a sink, or writes the compilation info
to the sink; `Completion` is what came of it, with its exit status and the line it puts on the
diagnostic stream. A line is written piece by piece, as it is put together, so that a stream that
fails at one of the requests is left with a first part of it. Failures of the diagnostic stream
change nothing else. -/

namespace BitTransducer
namespace Command

/-- The exit statuses of a command. -/
inductive ExitStatus
  | success
  | error
  | info
  | usage
  | matchError
deriving DecidableEq

/-- The exit code of a status. -/
def ExitStatus.code : ExitStatus → Nat
  | success => 0
  | error => 1
  | info => 2
  | usage => 64
  | matchError => 65

/-- Writes the pieces of a text one after the other, up to one that cannot be written. -/
def writePieces (pieces : List String) : EStateM String Sink Unit :=
  pieces.forM fun piece => Sink.writeAll (Utf8.encode piece)

/-- What came of a command. -/
inductive Completion
  /-- The compilation info was written. -/
  | info
  /-- The recognizer accepted or refused the input. -/
  | outcome (result : Outcome)
  /-- An error ended the command. -/
  | failure (cause : StreamError)
deriving DecidableEq

namespace Completion

/-- The exit status that a completion leads to. -/
def status : Completion → ExitStatus
  | info => .info
  | outcome .accept => .success
  | outcome (.fail _) => .matchError
  | failure _ => .error

/-- The pieces of the diagnostic line, none if there is no line; `elapsed` are the milliseconds that
a timed run took. -/
def pieces (mode : Mode) (elapsed : String) : Completion → List String
  | info => []
  | outcome .accept => if mode = .run true then ["time (ms): ", elapsed, "\n"] else []
  | outcome (.fail position) => ["Match error at input symbol ", toString position, "!\n"]
  | failure cause => "Error: " :: (cause.pieces ++ ["\n"])

/-- The diagnostic line, or nothing. -/
def diagnostic (mode : Mode) (elapsed : String) (c : Completion) : String :=
  String.join (c.pieces mode elapsed)

/-- Puts the diagnostic line on its stream; the exit status, and the stream. -/
def conclude (mode : Mode) (elapsed : String) (diagnostics : Sink) (c : Completion) :
    ExitStatus × Sink :=
  match writePieces (c.pieces mode elapsed) diagnostics with
  | .ok () diagnostics => (c.status, diagnostics)
  | .error _ diagnostics => (c.status, diagnostics)

end Completion

/-- What a command leaves: its completion, unless the recognizer broke a contract, the streams, and
the log. -/
structure Execution where
  completion : Except Violation Completion
  source : Source
  sink : Sink
  log : Array Event

/-- Writes the compilation info and a line end, and asks the sink to flush. -/
def writeInfo (text : String) : EStateM String Sink Unit := do
  writePieces [text, "\n"]
  Sink.flush

/-- Carries out a command between `source` and `sink`. -/
def execute {W : Width} (mode : Mode) (recognizer : Recognizer W) (info : String)
    (config : Config) (source : Source) (sink : Sink) : Execution :=
  match mode with
  | .info =>
    match writeInfo info sink with
    | .ok () sink => { completion := .ok .info, source, sink, log := #[] }
    | .error text sink =>
      { completion := .ok (.failure (.write text)), source, sink, log := #[] }
  | .run _ =>
    match Session.openWith W config source sink with
    | .error cause => { completion := .ok (.failure cause), source, sink, log := #[] }
    | .ok session =>
      let (completion, session) : Except Violation Completion × Session W :=
        match Session.run recognizer session with
        | .ok result session => (.ok (.outcome result), session)
        | .error (.error cause) session => (.ok (.failure cause), session)
        | .error (.violation cause) session => (.error cause, session)
      { completion, source := session.input.source, sink := session.output.sink,
        log := session.log }

end Command
end BitTransducer
