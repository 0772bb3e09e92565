/-! # Log events

What a transducer reports about its own work: buffers growing and being flushed, windows being
refilled, runs ending. An event is a value; `Event.line` writes it as a line of text, and a
`LogFilter` says which events are shown. -/

namespace BitTransducer

/-- How much an event matters, the most severe first. -/
inductive Level
  | error
  | warn
  | info
  | debug
  | trace
deriving DecidableEq

namespace Level

/-- The number of levels that are at least as severe. -/
def rank : Level → Nat
  | error => 1
  | warn => 2
  | info => 3
  | debug => 4
  | trace => 5

/-- The name of a level in log lines. -/
def label : Level → String
  | error => "ERROR"
  | warn => "WARN"
  | info => "INFO"
  | debug => "DEBUG"
  | trace => "TRACE"

end Level

/-- A report of one step of the work. -/
inductive Event
  /-- A bit buffer grew; sizes in bytes. -/
  | grown (before after : Nat)
  /-- Complete words left a bit buffer and `carried` bits stayed. -/
  | flushed (words carried : Nat)
  /-- A window kept `carried` bytes and took `read` bytes from its source. -/
  | refilled (carried read : Nat)
  /-- An output was completed after `bytes` bytes. -/
  | finished (bytes : Nat)
  /-- A run was accepted. -/
  | accepted (consumed written : Nat)
  /-- A run did not match after `position` bytes. -/
  | mismatched (position : Nat)
deriving DecidableEq

namespace Event

/-- The growth event, if there is one, of a buffer whose size in bytes was and now is as given. -/
def ofSizes (before after : Nat) : List Event :=
  if before = after then [] else [grown before after]

/-- How much an event matters. -/
def level : Event → Level
  | grown .. => .debug
  | flushed .. => .trace
  | refilled .. => .debug
  | finished .. => .debug
  | accepted .. => .info
  | mismatched .. => .warn

/-- The part of the runtime that an event comes from. -/
def target : Event → String
  | grown .. => "bitrt::bitbuffer"
  | flushed .. => "bitrt::bitbuffer"
  | refilled .. => "bitrt::input"
  | finished .. => "bitrt::output"
  | accepted .. => "bitrt::driver"
  | mismatched .. => "bitrt::driver"

/-- What happened, with its numbers as `name=value`. -/
def text : Event → String
  | grown before after => s!"growing bit buffer from={before} to={after}"
  | flushed words carried => s!"flushed bit buffer words={words} carried={carried}"
  | refilled carried read => s!"refilled input window carried={carried} read={read}"
  | finished bytes => s!"output finished bytes={bytes}"
  | accepted consumed written => s!"input accepted consumed={consumed} written={written}"
  | mismatched position => s!"match error position={position}"

/-- The line of text for an event: level, target, text. -/
def line (e : Event) : String := e.level.label ++ " " ++ e.target ++ ": " ++ e.text

end Event

/-- The least severe level that is shown; `none` shows nothing. -/
abbrev LogFilter := Option Level

namespace LogFilter

/-- The filter in force when none is asked for. -/
def default : LogFilter := some .warn

/-- The filter that a level's name asks for, in any case. -/
def ofName? (name : String) : Option LogFilter :=
  match name.toLower with
  | "off" => some none
  | "error" => some (some .error)
  | "warn" => some (some .warn)
  | "info" => some (some .info)
  | "debug" => some (some .debug)
  | "trace" => some (some .trace)
  | _ => none

/-- The filter that a setting asks for: a level's name, alone or after the name of the runtime.
Other settings, and none, ask for the default. -/
def ofSetting (setting? : Option String) : LogFilter :=
  match setting? with
  | none => default
  | some setting =>
    let name := match setting.splitOn "=" with
      | ["bitrt", name] => name
      | _ => setting
    (ofName? name).getD default

/-- Whether an event is shown. -/
def shows (filter : LogFilter) (e : Event) : Bool :=
  match filter with
  | none => false
  | some level => e.level.rank ≤ level.rank

end LogFilter
end BitTransducer
