import Mathlib.Data.List.Forall2
import BitTransducer.Proofs.Channel.Calls

/-! # Accounting for failures of the sink

A run of a channel is a list of calls that returned, each with its error if it failed; later calls
go on from what a failed one left. However the sink behaves, it is accounted for every bit: what was
handed over, followed by what is buffered, is what the calls committed, each of them what
`Returned.Commits` says.

Main statement: `Run.accounts_for_faults`. -/

namespace BitTransducer
namespace Channel

variable {W : Width}

/-- A call that returned: the channel before and after it, and the error, if it failed. -/
structure Returned (W : Width) where
  before : Channel W
  call : Call W
  error? : Option StreamError
  after : Channel W

namespace Returned

/-- What happened at the sink during the call. -/
def entries (r : Returned W) : List SinkEntry :=
  r.after.sink.entriesFrom r.before.sink.journal.size

/-- Nothing failed at the sink during a call that succeeded, and the last thing that happened, but
nothing else, during one that failed. -/
def OnlyLastFails (r : Returned W) : Prop :=
  match r.error? with
  | none => ∀ e ∈ r.entries, e.Done
  | some _ => ∃ done last, r.entries = done ++ [last] ∧ (∀ e ∈ done, e.Done) ∧ last.Failed

/-- What the call commits: all that it writes when it succeeds, and what `Call.CommitsOnError` says
when it fails. -/
def Commits (r : Returned W) (bits : List Bool) : Prop :=
  match r.error? with
  | none => bits = r.call.bits r.before.buffer.position
  | some _ => ∃ last, r.entries.getLast? = some last ∧
    r.call.CommitsOnError r.before.buffer r.after.buffer bits last

/-- A call that returned made progress by what it committed. -/
theorem progress {r : Returned W} (hs : r.before.buffer.Sound) (hv : r.call.Valid)
    (hr : Returns r.call.run r.before r.error? r.after) :
    r.OnlyLastFails ∧ ∃ bits, r.Commits bits ∧ Progress r.before r.after bits r.entries := by
  rcases (Call.ends_run hs r.call hv).of_returns hr with
    ⟨he, -, ⟨entries, hd, hp⟩, -⟩ | ⟨_, he, bits, last, ⟨-, hl, done, hd, hp⟩, hc⟩
  all_goals
    have hentries : r.entries = _ := hp.sink.entriesFrom_eq
    rw [OnlyLastFails, he, hentries]
  · exact ⟨hd, _, by rw [Commits, he], hp⟩
  · refine ⟨⟨done, last, rfl, hd, hl⟩, bits, ?_, hp⟩
    rw [Commits, he, hentries]
    exact ⟨last, List.getLast?_concat, hc⟩

end Returned

/-- The calls that returned, made in turn on a new channel at any sink, lead to the state. -/
inductive Run : List (Returned W) → Channel W → Prop
  | start (acceptances : List Acceptance) (flushes : List (Option String)) (capacity : Nat) :
      Run [] (ofSink (.scheduled acceptances flushes) capacity)
  | call {returned : List (Returned W)} {c c' : Channel W} (h : Run returned c) (call : Call W)
      (error? : Option StreamError) (hv : call.Valid) (hr : Returns call.run c error? c') :
      Run (returned ++ [⟨c, call, error?, c'⟩]) c'

/-- The books of a channel after calls that returned and committed the bits `commits`: the sink took
what the entries of the calls brought it, the bytes counted are those of the deliveries that
succeeded, and with the buffered bits they spell what was committed. -/
structure Accounts (returned : List (Returned W)) (commits : List (List Bool)) (c : Channel W) :
    Prop where
  received_eq : c.sink.received =
    (returned.flatMap Returned.entries).flatMap SinkEntry.received
  bytesWritten_eq : c.bytesWritten =
    ((returned.flatMap Returned.entries).flatMap SinkEntry.handedOver).length
  bits_eq : Bits.ofBytes ((returned.flatMap Returned.entries).flatMap SinkEntry.handedOver) ++
    c.buffer.content = commits.flatten

namespace Accounts

variable {returned : List (Returned W)} {commits : List (List Bool)}

theorem start (sink : Sink) (hs : sink.journal = #[]) (capacity : Nat) :
    Accounts [] [] (ofSink sink capacity : Channel W) where
  received_eq := by rw [Sink.received_eq, ofSink, hs]; rfl
  bytesWritten_eq := rfl
  bits_eq := BitBuffer.content_withCapacity (W := W) (capacity + W.bytes)

theorem concat {r : Returned W} {bits : List Bool} (h : Accounts returned commits r.before)
    (hp : Progress r.before r.after bits r.entries) :
    Accounts (returned ++ [r]) (commits ++ [bits]) r.after := by
  constructor <;>
    simp only [List.flatMap_append, List.flatMap_singleton, List.flatten_concat]
  · rw [hp.sink.received_eq, h.received_eq]
  · rw [hp.bytesWritten_eq, h.bytesWritten_eq, List.length_append]
  · rw [Bits.ofBytes_append, List.append_assoc, hp.bits_eq, ← List.append_assoc, h.bits_eq]

end Accounts

namespace Run

variable {returned : List (Returned W)} {c : Channel W}

theorem sound (h : Run returned c) : c.buffer.Sound := by
  induction h with
  | start => exact BitBuffer.sound_withCapacity _
  | call _ _ _ hv hr ih =>
    obtain ⟨-, _, -, hp⟩ := Returned.progress (r := ⟨_, _, _, _⟩) ih hv hr
    exact hp.sound

/-- Whatever the sink does, every bit is accounted for. -/
theorem accounts_for_faults (h : Run returned c) :
    (∀ r ∈ returned, r.OnlyLastFails) ∧
      ∃ commits, List.Forall₂ Returned.Commits returned commits ∧ Accounts returned commits c := by
  induction h with
  | start => exact ⟨nofun, [], .nil, .start _ rfl _⟩
  | @call returned c c' h call error? hv hr ih =>
    obtain ⟨hfail, commits, hc, ha⟩ := ih
    obtain ⟨hlast, bits, hbits, hp⟩ := Returned.progress (r := ⟨c, call, error?, c'⟩) h.sound hv hr
    refine ⟨fun r hmem => ?_, commits ++ [bits], ?_, ha.concat hp⟩
    · rcases List.mem_append.1 hmem with hmem | hmem
      · exact hfail r hmem
      · rwa [List.mem_singleton.1 hmem]
    · exact List.rel_append hc (.cons hbits .nil)

/-- A word of which a full disk took three bytes stays in the buffer, and is handed over when there
is room again. -/
theorem accounts_for_full_disk :
    ∃ (returned : List (Returned .w32)) (c : Channel .w32), Run returned c ∧
      returned.map (·.error?) = [some (.write "disk full"), none] ∧
      c.sink.received = [0xde, 0xad, 0xbe, 0xde, 0xad, 0xbe, 0xef] ∧ c.bytesWritten = 4 ∧
      ∃ commits, List.Forall₂ Returned.Commits returned commits ∧ Accounts returned commits c := by
  have hstart : Run (W := .w32) [] _ := .start [.take 3, .failure "disk full"] [] 0
  have hwrite := hstart.call (.write 0xdeadbeef 32) (some (.write "disk full")) (by decide) rfl
  have hflush := hwrite.call .flush none trivial ⟨(), rfl⟩
  exact ⟨_, _, hflush, rfl, by decide, rfl, (accounts_for_faults hflush).2⟩

end Run
end Channel
end BitTransducer
