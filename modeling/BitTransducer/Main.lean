import BitTransducer.Command.Bitcat

/-! # The program `bitcat`

Reads the standard input to its end, lets `Bitcat.invoke` transform it, and prints what comes of it.
The environment variable `BITRT_LOG` says which log lines are shown. -/

namespace BitTransducer
namespace Bitcat

/-- The bytes of a stream up to its end. -/
partial def readAll (stream : IO.FS.Stream) (read : ByteArray) : IO ByteArray := do
  let bytes ← stream.read 65536
  if bytes.isEmpty then return read else readAll stream (read ++ bytes)

/-- Puts an error of the standard streams on the diagnostic stream; the exit code. -/
def reportError (cause : StreamError) : IO UInt32 := do
  let completion := Command.Completion.failure cause
  IO.eprint (completion.diagnostic .info "")
  return UInt32.ofNat completion.status.code

/-- Carries out an invocation on the standard streams; the exit code. -/
def runProcess (arguments : List String) : IO UInt32 := do
  let path := (← IO.appPath).toString
  let arguments := (path :: arguments).map Utf8.encode
  let transforms := match Command.Mode.ofArguments? arguments with
    | some (.run _) => true
    | _ => false
  let input ← try
      if transforms then readAll (← IO.getStdin) .empty else pure .empty
    catch e => return ← reportError (.read (toString e))
  let started ← IO.monoMsNow
  let outcome ← IO.lazyPure fun () => invoke arguments input.toList
  let elapsed := (← IO.monoMsNow) - started
  match outcome with
  | .error violation =>
    IO.eprintln (violation.message?.getD "a contract was broken")
    return UInt32.ofNat Command.ExitStatus.error.code
  | .ok result =>
    try
      let output ← IO.getStdout
      output.write (ByteArray.mk result.output.toArray)
      output.flush
    catch e => return ← reportError (.write (toString e))
    let filter := LogFilter.ofSetting (← IO.getEnv "BITRT_LOG")
    IO.eprint (result.diagnostics filter (toString elapsed))
    return UInt32.ofNat result.status.code

end Bitcat
end BitTransducer

def main (arguments : List String) : IO UInt32 := BitTransducer.Bitcat.runProcess arguments
