import BitTransducer.Session
import BitTransducer.Proofs.Channel.Stream
import BitTransducer.Proofs.Window.Steps

/-! # What a program does to a session

A program chooses its requests from the answers to earlier ones, so that only a run tells which it
makes: `history` lists them, each with the state that it leaves, up to the first that fails. What
they do to the session is kept in books (`Tally`) that every answer extends, by the bits that the
request writes and the bytes that it consumes. As long as the books are kept, nothing has failed at
the source or at the sink, and when a request fails, something has (`Faultless`); then what the sink
took is still a first part of what was written.

Main statements: `Tally.ends_answer` for one request and `Tally.ends_perform` for a program. -/

namespace BitTransducer

variable {W : Width} {α β : Type}

/-! ## Requests -/

namespace Request

/-- The call on the output channel that the request makes, if it makes one. -/
def call? : Request W → Option (Channel.Call W)
  | write word count => some (.write word count)
  | writeWords words count => some (.writeWords words count)
  | writeWordsDirect words count => some (.writeWordsDirect words count)
  | writeBuffer source => some (.writeBuffer source)
  | flush => some .flush
  | pad => some .pad
  | finish => some .finish
  | flushSink => some .flushSink
  | _ => none

/-- The number of bytes that the request consumes. -/
def consumed : Request W → Nat
  | consume count => count
  | _ => 0

/-- A single word ends where its count says. -/
def Fits : Request W → Prop
  | write word count => word.Fits count
  | _ => True

instance : DecidablePred (Fits (W := W))
  | write .. => inferInstanceAs (Decidable (_ ∧ _))
  | refill .. | consume _ | startsWith _ | peek _ | window | writeWords .. | writeWordsDirect ..
  | writeBuffer _ | flush | pad | finish | flushSink | channel | buffered | config | note _
  | report _ | violate _ => inferInstanceAs (Decidable True)

theorem Fits.call {request : Request W} (h : request.Fits) {call : Channel.Call W}
    (hcall : request.call? = some call) : call.Fits := by
  cases request with
  | write =>
    cases hcall
    exact h
  | writeWords | writeWordsDirect | writeBuffer | flush | pad | finish | flushSink =>
    cases hcall
    trivial
  | _ => cases hcall

end Request

/-- The bits that the requests write, made in turn on an empty channel. -/
def emitted (requests : List (Request W)) : List Bool :=
  Channel.written (requests.filterMap Request.call?)

/-- The number of bytes that the requests consume. -/
def consumed (requests : List (Request W)) : Nat :=
  requests.foldl (fun count request => count + request.consumed) 0

section
variable {requests : List (Request W)} {request : Request W}

theorem emitted_concat {call : Channel.Call W} (h : request.call? = some call) :
    emitted (requests ++ [request]) =
      emitted requests ++ call.bits (emitted requests).length := by
  rw [emitted, List.filterMap_append, List.filterMap_cons_some h, List.filterMap_nil,
    Channel.written_concat, emitted]

theorem emitted_concat_of_none (h : request.call? = none) :
    emitted (requests ++ [request]) = emitted requests := by
  rw [emitted, List.filterMap_append, List.filterMap_cons_none h, List.filterMap_nil,
    List.append_nil, emitted]

theorem consumed_concat (requests : List (Request W)) (request : Request W) :
    consumed (requests ++ [request]) = consumed requests + request.consumed := by
  rw [consumed, List.foldl_append]
  rfl

end

namespace Session

variable {s s₀ s' : Session W}

/-! ## Steps of either side -/

theorem ends_onOutput {step : Channel.Action W α} {ok : α → Session W → Prop}
    {failed : StreamError → Session W → Prop} {broken : Prop}
    (h : Ends (step s.output) (fun a output => ok a (collect { s with output }))
      (fun e output => failed e (collect { s with output })) broken) :
    Ends (onOutput step s) ok failed broken := by
  unfold onOutput
  dsimp only
  cases hstep : step s.output with
  | ok a output =>
    rw [hstep] at h
    exact h
  | error failure output =>
    rw [hstep] at h
    cases failure with
    | error e => exact h
    | violation _ => exact h

theorem ends_onInput {step : Window.Action α} {ok : α → Session W → Prop}
    {failed : StreamError → Session W → Prop} {broken : Prop}
    (h : Ends (step s.input) (fun a input => ok a (collect { s with input }))
      (fun e input => failed e (collect { s with input })) broken) :
    Ends (onInput step s) ok failed broken := by
  unfold onInput
  dsimp only
  cases hstep : step s.input with
  | ok a input =>
    rw [hstep] at h
    exact h
  | error failure input =>
    rw [hstep] at h
    cases failure with
    | error e => exact h
    | violation _ => exact h

/-- The requests that a program makes from `s` on, each with the state that it leaves. Only the last
one may have failed. -/
def history : Program W α → Session W → List (Request W × Session W)
  | .done _, _ => []
  | .ask request next, s =>
    match answer request s with
    | .ok a s' => (request, s') :: history (next a) s'
    | .error _ s' => [(request, s')]

/-- The requests that a program makes from `s` on. -/
def asked (program : Program W α) (s : Session W) : List (Request W) :=
  (history program s).map Prod.fst

theorem asked_of_ok {request : Request W} {next : request.Answer → Program W α}
    {a : request.Answer} (h : answer request s = .ok a s') :
    asked (.ask request next) s = request :: asked (next a) s' := by
  rw [asked, history, h]
  rfl

theorem asked_of_error {request : Request W} {next : request.Answer → Program W α}
    {failure : Failure StreamError} (h : answer request s = .error failure s') :
    asked (.ask request next) s = [request] := by
  rw [asked, history, h]
  rfl

/-- The program keeps to the contracts: none of its requests breaks one, and each of its single
words ends where its count says. -/
structure Conforms (program : Program W α) (s : Session W) : Prop where
  fits : ∀ request ∈ asked program s, request.Fits
  returns : ∃ error? s', Returns (perform program) s error? s'

/-- Between `s` and `s'` no read failed, and all that the sink was asked for happened. -/
def Faultless (s s' : Session W) : Prop :=
  s'.input.source.failures = s.input.source.failures ∧
    ∀ e ∈ s'.output.sink.entriesFrom s.output.sink.journal.size, e.Done

/-! ## Books -/

/-- The books of a session that started as `s₀`, with nothing buffered, and answered the
requests. -/
structure Tally (s₀ s : Session W) (requests : List (Request W)) : Prop where
  start : s₀.output.buffer.Sound ∧ s₀.output.buffer.position = 0
  input : s.input.Sound
  failures_eq : s.input.source.failures = s₀.input.source.failures
  count_eq : s.input.count = s₀.input.count + consumed requests
  output : Channel.Advances s₀.output s.output (emitted requests)
  nearEnd : s.output.buffer.nearEnd = false

/-- A failure happened, and what the sink took is a first part of the bits that the requests write,
those of the last one included. -/
def FailsWithin (s₀ s : Session W) (requests : List (Request W)) : Prop :=
  ¬ Faultless s₀ s ∧ Channel.LeavesPrefix s₀.output s.output (emitted requests)

theorem not_faultless_of_fails {bits : List Bool} {last : SinkEntry}
    (h : Channel.Fails s₀.output s.output bits last) : ¬ Faultless s₀ s := by
  intro hfaultless
  obtain ⟨-, hlast, done, -, hp⟩ := h
  have hdone : last.Done := by
    apply hfaultless.2
    rw [hp.sink.entriesFrom_eq]
    exact List.mem_append_right _ List.mem_cons_self
  -- the last entry is a write that took too little, or a flush that did not happen
  cases last with
  | delivery => exact absurd hdone (Nat.ne_of_lt hlast)
  | flush => exact absurd (Eq.trans (Eq.symm hlast) hdone) Bool.false_ne_true

namespace Tally

variable {requests : List (Request W)} {request : Request W} {call : Channel.Call W}

theorem faultless (h : Tally s₀ s requests) : Faultless s₀ s := by
  refine ⟨h.failures_eq, ?_⟩
  obtain ⟨entries, hdone, hp⟩ := h.output
  rwa [hp.sink.entriesFrom_eq]

theorem bits_eq (h : Tally s₀ s requests) (hcall : request.call? = some call) :
    emitted (requests ++ [request]) =
      emitted requests ++ call.bits s.output.buffer.position := by
  have hoffset := h.output.offset_eq h.start.1
  rw [h.start.2, Nat.zero_add] at hoffset
  rw [emitted_concat hcall, call.bits_congr hoffset]

theorem of_eq (h : Tally s₀ s requests) (hinput : s'.input = s.input)
    (houtput : s'.output = s.output) : Tally s₀ s' requests where
  start := h.start
  input := hinput ▸ h.input
  failures_eq := hinput ▸ h.failures_eq
  count_eq := hinput ▸ h.count_eq
  output := houtput ▸ h.output
  nearEnd := houtput ▸ h.nearEnd

theorem idle (h : Tally s₀ s requests) (hcall : request.call? = none)
    (hconsumed : request.consumed = 0) : Tally s₀ s (requests ++ [request]) where
  start := h.start
  input := h.input
  failures_eq := h.failures_eq
  count_eq := by rw [consumed_concat, hconsumed, Nat.add_zero, h.count_eq]
  output := by
    rw [emitted_concat_of_none hcall]
    exact h.output
  nearEnd := h.nearEnd

/-- A call on the output either extends the books or fails within what is written then. -/
theorem ends_call (h : Tally s₀ s requests) (hcall : request.call? = some call)
    (hconsumed : request.consumed = 0) (hfits : request.Fits) :
    Ends (onOutput call.run s)
      (fun _ s' => Tally s₀ s' (requests ++ [request]) ∧
        (call = .finish → s'.output.Finished))
      (fun _ s' => FailsWithin s₀ s' (requests ++ [request]))
      (¬ call.Valid) := by
  have hbits := h.bits_eq hcall
  refine ends_onOutput ((Channel.Call.ends_run_of_fits h.output.sound call (hfits.call hcall)).mono
    ?_ ?_ ?_)
  · intro _ output h'
    obtain ⟨-, hadvances, hnear, hfinish⟩ := h'
    refine ⟨{
      start := h.start
      input := h.input.withEvents _
      failures_eq := h.failures_eq
      count_eq := by
        rw [consumed_concat, hconsumed, Nat.add_zero]
        exact h.count_eq
      output := by
        rw [hbits]
        exact (h.output.trans hadvances).withEvents _
      nearEnd := hnear h.nearEnd }, fun hcall => ?_⟩
    exact ⟨(hfinish hcall).position_eq, (hfinish hcall).flushed⟩
  · intro _ output h'
    obtain ⟨⟨bits, last, hfails, -⟩, hleaves⟩ := h'
    refine ⟨not_faultless_of_fails (s := { s with output }) (h.output.fails hfails), ?_⟩
    rw [hbits]
    exact Channel.LeavesPrefix.of_advances h.output hleaves
  · -- there is always room: a channel never leaves its buffer near the end
    intro hroom hvalid
    exact hroom ⟨BitBuffer.hasRoom_of_nearEnd h.nearEnd, hvalid⟩

/-- A step on the input either extends the books or fails because the source did. -/
theorem ends_window {step : Window.Action α} (h : Tally s₀ s requests)
    (hcall : request.call? = none)
    (hstep : Ends (step s.input)
      (fun _ input => input.Sound ∧ input.source.failures = s.input.source.failures ∧
        input.count = s.input.count + request.consumed)
      (fun _ input => input.source.failures < s.input.source.failures) True) :
    Ends (onInput step s) (fun _ s' => Tally s₀ s' (requests ++ [request]))
      (fun _ s' => FailsWithin s₀ s' (requests ++ [request])) True := by
  refine ends_onInput (hstep.mono ?_ ?_ id)
  · intro _ input h'
    obtain ⟨hsound, hfailures, hcount⟩ := h'
    exact {
      start := h.start
      input := hsound.withEvents _
      failures_eq := hfailures.trans h.failures_eq
      count_eq := by
        rw [consumed_concat, ← Nat.add_assoc, ← h.count_eq]
        exact hcount
      output := by
        rw [emitted_concat_of_none hcall]
        exact h.output.withEvents _
      nearEnd := h.nearEnd }
  · intro _ input hfailures
    constructor
    · intro hfaultless
      have hlt := Nat.lt_of_lt_of_eq hfailures h.failures_eq
      exact absurd hfaultless.1 (Nat.ne_of_lt hlt)
    · rw [emitted_concat_of_none hcall]
      exact h.output.leavesPrefix

/-- Whatever a program asks for, an answer extends the books and an error comes from a failure. -/
theorem ends_answer (h : Tally s₀ s requests) (request : Request W) (hfits : request.Fits) :
    Ends (answer request s) (fun _ s' => Tally s₀ s' (requests ++ [request]))
      (fun _ s' => FailsWithin s₀ s' (requests ++ [request])) True := by
  cases request with
  | refill minimum maximum =>
    refine h.ends_window rfl ((Window.ends_refill h.input minimum maximum).mono ?_ ?_ ?_)
    · rintro _ input ⟨-, ⟨-, rfl⟩ | ⟨-, bytes, hfill, hgains⟩⟩
      · exact ⟨h.input, rfl, rfl⟩
      · have hfailures := s.input.source.failures_fill s.input.block
        rw [hfill] at hfailures
        exact ⟨hgains.sound, hfailures, hgains.count_eq⟩
    · rintro _ input ⟨-, ⟨text, -, hfill⟩, -⟩
      have hfailures := s.input.source.failures_fill s.input.block
      rw [hfill] at hfailures
      exact hfailures
    · intro _
      trivial
  | consume count =>
    refine h.ends_window rfl ((Window.ends_consume h.input count).mono ?_ ?_ ?_)
    · rintro _ input ⟨-, hsound, hsource, -, hcount, -⟩
      exact ⟨hsound, by rw [hsource], hcount⟩
    · intro _ _ h
      exact h.elim
    · intro _
      trivial
  | write | writeWords | writeWordsDirect | writeBuffer | flush | pad | finish | flushSink =>
    exact (h.ends_call rfl rfl hfits).mono (fun _ _ h => h.1) (fun _ _ h => h) fun _ => trivial
  | startsWith | peek | window | channel | buffered | config | note | report =>
    exact (h.idle rfl rfl).of_eq rfl rfl
  | violate cause => trivial

theorem ends_perform (h : Tally s₀ s requests) (program : Program W α)
    (hfits : ∀ request ∈ asked program s, request.Fits) :
    Ends (perform program s) (fun _ s' => Tally s₀ s' (requests ++ asked program s))
      (fun _ s' => FailsWithin s₀ s' (requests ++ asked program s)) True := by
  induction program generalizing s requests with
  | done result =>
    rw [asked, history, List.map_nil, List.append_nil]
    exact h
  | ask request next ih =>
    refine .bind ?_
    cases hanswer : answer request s with
    | ok a s₁ =>
      rw [asked_of_ok hanswer] at hfits ⊢
      have hstep := h.ends_answer request (hfits request List.mem_cons_self)
      rw [hanswer] at hstep
      -- the rest starts from the books of this answer, so its requests come after this one
      rw [List.append_cons]
      exact ih a hstep fun request hmem => hfits request (List.mem_cons_of_mem _ hmem)
    | error failure s₁ =>
      rw [asked_of_error hanswer] at hfits ⊢
      have hstep := h.ends_answer request (hfits request List.mem_cons_self)
      rw [hanswer] at hstep
      cases failure with
      | error e => exact hstep
      | violation cause => trivial

end Tally

/-! ## New sessions -/

theorem eq_of_openWith {config : Config} {source : Source} {sink : Sink}
    (h : openWith W config source sink = .ok s) :
    s = { input := .ofBlock source config.blockSize, output := .ofSink sink config.outputSize,
          config, log := #[], transcript := #[] } := by
  rw [openWith] at h
  split at h
  · cases h
  · exact (Except.ok.inj h).symm

/-- Nothing happened yet. -/
structure Fresh (s : Session W) : Prop where
  tally : Tally s s []
  count_eq : s.input.count = 0
  bytesWritten_eq : s.output.bytesWritten = 0
  received_eq : s.output.sink.received = []
  transcript_eq : s.transcript = #[]

theorem fresh_of_openWith {config : Config} {source : Source} {sink : Sink}
    (h : openWith W config source sink = .ok s) (hsink : sink.journal = #[]) : Fresh s := by
  obtain rfl := eq_of_openWith h
  exact {
    tally := {
      start := ⟨Channel.sound_ofSink .., rfl⟩
      input := Window.sound_ofBlock ..
      failures_eq := rfl
      count_eq := rfl
      output := .refl (Channel.sound_ofSink ..)
      nearEnd := Channel.nearEnd_ofSink .. }
    count_eq := rfl
    bytesWritten_eq := rfl
    received_eq := by
      rw [Channel.ofSink, Sink.received_eq, hsink]
      rfl
    transcript_eq := rfl }

namespace Fresh

variable {requests : List (Request W)}

theorem stream_eq (h : Fresh s) : s.output.stream = [] := by
  rw [Channel.stream, h.received_eq, BitBuffer.content, h.tally.start.2, List.take_zero]
  rfl

theorem count_tally (h : Fresh s₀) (h' : Tally s₀ s requests) :
    s.input.count = consumed requests := by
  rw [h'.count_eq, h.count_eq, Nat.zero_add]

theorem stream_tally (h : Fresh s₀) (h' : Tally s₀ s requests) :
    s.output.stream = emitted requests := by
  rw [h'.output.stream_eq, h.stream_eq, List.nil_append]

theorem isPrefix_of_leavesPrefix (h : Fresh s₀) {bits : List Bool}
    (h' : Channel.LeavesPrefix s₀.output s.output bits) :
    Bits.ofBytes s.output.sink.received <+: bits := by
  rwa [Channel.LeavesPrefix, h.stream_eq, List.nil_append] at h'

/-- A program that keeps to the contracts ends with a failure, or it has answers to all it asked. -/
theorem perform_cases (h : Fresh s) {program : Program W α} (hc : Conforms program s) :
    (∃ e s₁, perform program s = .error (.error e) s₁ ∧ FailsWithin s s₁ (asked program s)) ∨
      ∃ a s₁, perform program s = .ok a s₁ ∧ Tally s s₁ (asked program s) := by
  have hends := h.tally.ends_perform program hc.fits
  rw [List.nil_append] at hends
  obtain ⟨error?, s₁, hr⟩ := hc.returns
  cases error? with
  | none =>
    obtain ⟨a, ha⟩ := hr
    rw [ha] at hends
    exact .inr ⟨a, s₁, ha, hends⟩
  | some e =>
    have he : perform program s = .error (.error e) s₁ := hr
    rw [he] at hends
    exact .inl ⟨e, s₁, he, hends⟩

theorem run_eq (h : Fresh s) (recognizer : Recognizer W) :
    run recognizer s = (perform (recognizer s.patience) >>= conclude) s := by
  have htranscript : { s with transcript := #[] } = s := by rw [← h.transcript_eq]
  show (perform (recognizer s.patience) >>= conclude) { s with transcript := #[] } = _
  rw [htranscript]

end Fresh

end Session
end BitTransducer
