import BitTransducer.Text.Utf8

/-! # Command lines

A command takes one option at most: `-i` prints what was compiled, `-t` reports how long the run
took. Anything else gets the usage text, which names the program by the last component of the path
that it was called by. Arguments are byte strings, the program's path first. -/

namespace BitTransducer
namespace Command

/-- What an invocation asks for. -/
inductive Mode
  | run (timing : Bool)
  | info
deriving DecidableEq

/-- The mode that the arguments ask for; `none` for a malformed invocation. -/
def Mode.ofArguments? (arguments : List (List UInt8)) : Option Mode :=
  match arguments.drop 1 with
  | [] => some (.run false)
  | [option] =>
    if option = Utf8.encode "-i" then some .info
    else if option = Utf8.encode "-t" then some (.run true)
    else none
  | _ => none

/-- The last component of a path that is a name: neither empty nor `.`, which are passed over, nor
`..`, which has no name. -/
def lastComponent? (path : List UInt8) : Option (List UInt8) :=
  let components := (path.splitOn (UInt8.ofNat 0x2F)).filter fun component =>
    component ≠ [] ∧ component ≠ Utf8.encode "."
  match components.getLast? with
  | none => none
  | some component => if component = Utf8.encode ".." then none else some component

/-- The name that the program was called by, or `prog` if its path has none. -/
def programName (arguments : List (List UInt8)) : String :=
  match arguments.head?.bind lastComponent? with
  | none => "prog"
  | some name => Utf8.decode name

/-- The usage text of a program. -/
def usage (name : String) : String :=
  s!"Normal usage: {name} < infile > outfile\n" ++
  s!"- \"{name}\": reads from stdin and writes to stdout.\n" ++
  s!"- \"{name} -i\": prints compilation info.\n" ++
  s!"- \"{name} -t\": runs normally, but prints timing to stderr.\n"

end Command
end BitTransducer
