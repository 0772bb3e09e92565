import BitTransducer.Command.Execute
import BitTransducer.Recognizer.Identity

/-! # The command `bitcat`

`bitcat` copies its standard input to its standard output through the identity recognizer, with
words of 64 bits and the default sizes, so that the output is filled up with zeros to whole words.
Here it is a function from arguments and input to what it prints. -/

namespace BitTransducer
namespace Bitcat

/-- The compilation info. -/
def info : String := "bitcat 1.0.0\nword: 64 bits\nrecognizer: identity"

/-- What the command prints and how it exits. -/
structure Result where
  status : Command.ExitStatus
  output : List UInt8
  log : Array Event
  /-- The diagnostic line, or nothing, given the milliseconds that a timed run took. -/
  diagnostic : (elapsed : String) → String

/-- Carries out an invocation: the arguments, the program's path first, and the standard input. -/
def invoke (arguments : List (List UInt8)) (input : List UInt8) : Except Violation Result :=
  match Command.Mode.ofArguments? arguments with
  | none => .ok {
      status := .usage
      output := Utf8.encode (Command.usage (Command.programName arguments))
      log := #[]
      diagnostic := fun _ => "" }
  | some mode => do
    let recognizer : Recognizer .w64 := Recognizer.identity
    let execution := Command.execute mode recognizer info .default (.ofBytes input) .accepting
    let completion ← execution.completion
    return {
      status := completion.status
      output := execution.sink.received
      log := execution.log
      diagnostic := fun elapsed => completion.diagnostic mode elapsed }

/-- The text on the diagnostic stream: the log lines that are shown, and the diagnostic line. -/
def Result.diagnostics (r : Result) (filter : LogFilter) (elapsed : String) : String :=
  let shown := (r.log.toList.filter filter.shows).map fun e => e.line ++ "\n"
  String.join shown ++ r.diagnostic elapsed

end Bitcat
end BitTransducer
