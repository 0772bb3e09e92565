import BitTransducer.Proofs.Session.History
import BitTransducer.Proofs.Window.Coverage

/-! # Runs that differ in their schedules only

Two sources that deliver the same bytes may bring them in different reads, and two sinks that take
everything may take it in different parts. A session shows nothing of that: all its steps keep two
states in lockstep that agree in everything but the schedules of source and sink (`Alike`), so that
a program makes the same requests in both, with the same answers.

Main statement: `ends_alike_on_steady_streams`. -/

namespace BitTransducer

variable {W : Width} {α : Type}

/-! ## Channels -/

namespace Channel

/-- The channels agree, and their sinks took the same bytes and never fail. -/
structure Alike (c d : Channel W) : Prop where
  buffer_eq : c.buffer = d.buffer
  bytesWritten_eq : c.bytesWritten = d.bytesWritten
  events_eq : c.events = d.events
  received_eq : c.sink.received = d.sink.received
  neverFails : c.sink.NeverFails ∧ d.sink.NeverFails

theorem lockstep_modify {f : Channel W → Channel W}
    (h : ∀ c d, Alike c d → Alike (f c) (f d)) :
    Lockstep Alike (modify f : Action W Unit) := fun c d hcd => .ok () (h c d hcd)

theorem lockstep_inBounds (p : Prop) [Decidable p] : Lockstep Alike (inBounds p : Action W Unit) :=
  .ite (.pure ()) (.violate .outOfBounds)

theorem lockstep_note (e : Event) : Lockstep Alike (note e : Action W Unit) :=
  lockstep_modify fun _ _ h =>
    ⟨h.buffer_eq, h.bytesWritten_eq, congrArg (·.push e) h.events_eq, h.received_eq, h.neverFails⟩

theorem lockstep_onBuffer (step : BitBuffer W → BitBuffer W) :
    Lockstep Alike (onBuffer step : Action W Unit) := fun _ _ h =>
  .ok () ⟨congrArg step h.buffer_eq, h.bytesWritten_eq, h.events_eq, h.received_eq, h.neverFails⟩

theorem lockstep_onSink {step : EStateM String Sink Unit} (bytes : List UInt8)
    (h : ∀ sink : Sink, sink.NeverFails → ∃ sink', step sink = .ok () sink' ∧
      sink'.received = sink.received ++ bytes ∧ sink'.NeverFails) :
    Lockstep Alike (onSink step : Action W Unit) := by
  intro c d hcd
  obtain ⟨sink, hc, hcreceived, hcfails⟩ := h c.sink hcd.neverFails.1
  obtain ⟨sink', hd, hdreceived, hdfails⟩ := h d.sink hcd.neverFails.2
  simp only [onSink, hc, hd]
  exact .ok () {
    buffer_eq := hcd.buffer_eq
    bytesWritten_eq := hcd.bytesWritten_eq
    events_eq := hcd.events_eq
    received_eq := by rw [hcreceived, hdreceived, hcd.received_eq]
    neverFails := ⟨hcfails, hdfails⟩ }

theorem lockstep_emit (words : List (Word W)) : Lockstep Alike (emit words) := by
  refine .bind (lockstep_onSink (Words.toBytes words) fun _ hs => hs.writeAll_eq _) fun _ => ?_
  exact lockstep_modify fun _ _ h =>
    ⟨h.buffer_eq, congrArg (· + _) h.bytesWritten_eq, h.events_eq, h.received_eq, h.neverFails⟩

theorem lockstep_flush : Lockstep Alike (flush : Action W Unit) := by
  refine .get_bind fun c d h => ⟨by rw [h.buffer_eq], ?_⟩
  refine .bind ?_ fun flushed => .bind (lockstep_onBuffer _) fun _ => ?_
  · exact .ite (.pure _) (.bind (lockstep_emit _) fun _ => .pure _)
  · exact .ite (lockstep_note _) (.pure ())

theorem lockstep_write (word : Word W) (count : Nat) : Lockstep Alike (write word count) := by
  refine .get_bind fun c d h => ⟨by rw [h.buffer_eq], ?_⟩
  refine .bind (lockstep_inBounds _) fun _ => .bind (lockstep_onBuffer _) fun _ => ?_
  refine .get_bind fun c d h => ⟨by rw [h.buffer_eq], ?_⟩
  exact .ite lockstep_flush (.pure ())

theorem lockstep_forM_write (pieces : List (Word W × Nat)) :
    Lockstep Alike (pieces.forM fun piece => write piece.1 piece.2 : Action W Unit) := by
  induction pieces with
  | nil => exact .pure ()
  | cons piece pieces ih =>
    exact .bind (lockstep_write _ _) fun _ => ih

theorem lockstep_writeShifted (words : List (Word W)) (count : Nat) :
    Lockstep Alike (writeShifted words count) :=
  .bind (lockstep_inBounds _) fun _ => .bind (lockstep_forM_write _) fun _ => lockstep_inBounds _

theorem lockstep_writeBlock (words : List (Word W)) (count : Nat) :
    Lockstep Alike (writeBlock words count) := by
  refine .get_bind fun c d h => ⟨by rw [h.buffer_eq], ?_⟩
  refine .bind (lockstep_inBounds _) fun _ => .bind (lockstep_inBounds _) fun _ =>
    .bind (lockstep_onBuffer _) fun _ => ?_
  refine .get_bind fun c d h => ⟨by rw [h.buffer_eq], ?_⟩
  exact .ite_bind lockstep_flush (.pure _)

theorem lockstep_writeBlocks (limit : Nat) (words : List (Word W)) (count : Nat) :
    Lockstep Alike (writeBlocks limit words count) := by
  induction limit generalizing words count with
  | zero =>
    cases count with
    | zero => exact .pure ()
    | succ count => exact .violate .stalled
  | succ limit ih =>
    cases count with
    | zero => exact .pure ()
    | succ count => exact .bind (lockstep_writeBlock _ _) fun _ => ih _ _

theorem lockstep_writeWords (words : List (Word W)) (count : Nat) :
    Lockstep Alike (writeWords words count) := by
  refine .get_bind fun c d h => ⟨by rw [h.buffer_eq], ?_⟩
  exact .ite (lockstep_writeBlocks _ _ _) (lockstep_writeShifted _ _)

theorem lockstep_writeWordsDirect (words : List (Word W)) (count : Nat) :
    Lockstep Alike (writeWordsDirect words count) := by
  refine .get_bind fun c d h => ⟨by rw [h.buffer_eq], ?_⟩
  refine .ite ?_ (lockstep_writeShifted _ _)
  refine .bind lockstep_flush fun _ => .bind (lockstep_inBounds _) fun _ => ?_
  refine .ite_bind (lockstep_emit _) (.ite ?_ (.pure ()))
  cases words[count / W.bits]? with
  | none => exact .violate .outOfBounds
  | some word => exact lockstep_write _ _

theorem lockstep_pad : Lockstep Alike (pad : Action W Unit) := by
  refine .get_bind fun c d h => ⟨by rw [h.buffer_eq], ?_⟩
  exact .ite (lockstep_write _ _) (.pure ())

theorem lockstep_flushSink : Lockstep Alike (flushSink : Action W Unit) :=
  lockstep_onSink [] fun _ hs => by
    rw [List.append_nil]
    exact hs.flush_eq

theorem lockstep_finish : Lockstep Alike (finish : Action W Unit) := by
  refine .bind lockstep_pad fun _ => .bind lockstep_flush fun _ =>
    .bind lockstep_flushSink fun _ => ?_
  exact .get_bind fun c d h => ⟨by rw [h.bytesWritten_eq], lockstep_note _⟩

end Channel

/-! ## Windows -/

namespace Window

/-- The windows agree, and the same bytes are pending at their sources, which are steady. -/
structure Alike (w v : Window) : Prop where
  buffer_eq : w.buffer = v.buffer
  block_eq : w.block = v.block
  start_eq : w.start = v.start
  stop_eq : w.stop = v.stop
  count_eq : w.count = v.count
  events_eq : w.events = v.events
  pending_eq : w.source.pending = v.source.pending
  steady : w.source.Steady ∧ v.source.Steady

variable {w v : Window}

theorem Alike.available_eq (h : Alike w v) : w.available = v.available := by
  rw [available, available, h.start_eq, h.stop_eq]

theorem Alike.peek_eq (h : Alike w v) (count : Nat) : w.peek count = v.peek count := by
  rw [peek, peek, h.buffer_eq, h.start_eq, h.stop_eq]

theorem Alike.lookahead_eq (h : Alike w v) : w.lookahead = v.lookahead := by
  rw [lookahead, lookahead, h.available_eq, h.peek_eq]

theorem Alike.carry (h : Alike w v) : Alike w.carry v.carry := by
  unfold Window.carry
  rw [h.lookahead_eq, h.buffer_eq, h.block_eq]
  exact ⟨rfl, rfl, rfl, rfl, h.count_eq, h.events_eq, h.pending_eq, h.steady⟩

/-- However a steady source splits its bytes, the second block is filled with as many as fit. -/
theorem lockstep_fillBlock : Lockstep Alike fillBlock := by
  intro w v h
  obtain ⟨source, hw, hsteady, hpending⟩ := h.steady.1.fill_eq w.block
  obtain ⟨source', hv, hsteady', hpending'⟩ := h.steady.2.fill_eq v.block
  unfold fillBlock
  dsimp only
  rw [hw, hv, h.pending_eq, h.block_eq, h.start_eq, h.buffer_eq, h.events_eq]
  refine .ok () ⟨rfl, rfl, rfl, rfl, h.count_eq, rfl, ?_, hsteady, hsteady'⟩
  rw [hpending, hpending', h.pending_eq, h.block_eq]

theorem lockstep_refill (minimum maximum : Nat) : Lockstep Alike (refill minimum maximum) := by
  refine .get_bind fun w v h => ⟨by rw [h.block_eq, h.available_eq], ?_⟩
  -- whether blocks change or not, the answer is read off the window afterwards
  have hanswer : Lockstep Alike (do return minimum ≤ (← get).available : Action Bool) :=
    .get_bind fun w v h => ⟨by rw [h.available_eq], .pure _⟩
  refine .ite (.violate _) (.ite (.violate _) (.ite ?_ hanswer))
  exact .bind (fun w v h => .ok () h.carry) fun _ => .bind lockstep_fillBlock fun _ => hanswer

theorem lockstep_consume (count : Nat) : Lockstep Alike (consume count) := by
  refine .get_bind fun w v h => ⟨by rw [h.available_eq], ?_⟩
  refine .ite (.violate _) fun w v h => .ok () ?_
  exact ⟨h.buffer_eq, h.block_eq, congrArg (· + count) h.start_eq, h.stop_eq,
    congrArg (· + count) h.count_eq, h.events_eq, h.pending_eq, h.steady⟩

end Window

/-! ## Sessions -/

namespace Session

variable {s t : Session W}

/-- Both sides of the sessions agree, and the sessions themselves. -/
structure Alike (s t : Session W) : Prop where
  input : s.input.Alike t.input
  output : s.output.Alike t.output
  config_eq : s.config = t.config
  log_eq : s.log = t.log
  transcript_eq : s.transcript = t.transcript

theorem Alike.collect (h : Alike s t) : Alike s.collect t.collect := by
  unfold Session.collect
  exact {
    input := { h.input with events_eq := rfl }
    output := { h.output with events_eq := rfl }
    config_eq := h.config_eq
    log_eq := by
      show s.log ++ s.input.events ++ s.output.events = t.log ++ t.input.events ++ t.output.events
      rw [h.log_eq, h.input.events_eq, h.output.events_eq]
    transcript_eq := h.transcript_eq }

theorem lockstep_onInput {step : Window.Action α} (hstep : Lockstep Window.Alike step) :
    Lockstep Alike (onInput step : Action W α) := by
  intro s t h
  have hends := hstep _ _ h.input
  unfold onInput
  dsimp only
  generalize step s.input = ending at hends ⊢
  generalize step t.input = ending' at hends ⊢
  cases hends with
  | ok a hinput => exact .ok a (Alike.collect { h with input := hinput })
  | violation cause hinput => exact .violation cause (Alike.collect { h with input := hinput })

theorem lockstep_onOutput {step : Channel.Action W α} (hstep : Lockstep Channel.Alike step) :
    Lockstep Alike (onOutput step : Action W α) := by
  intro s t h
  have hends := hstep _ _ h.output
  unfold onOutput
  dsimp only
  generalize step s.output = ending at hends ⊢
  generalize step t.output = ending' at hends ⊢
  cases hends with
  | ok a houtput => exact .ok a (Alike.collect { h with output := houtput })
  | violation cause houtput => exact .violation cause (Alike.collect { h with output := houtput })

theorem lockstep_note (e : Event) : Lockstep Alike (note e : Action W Unit) :=
  fun _ _ h => .ok () { h with log_eq := congrArg (·.push e) h.log_eq }

theorem Alike.windowView_eq (h : Alike s t) : s.windowView = t.windowView := by
  rw [windowView, windowView, h.input.available_eq, Window.cursor, Window.cursor, Window.lastRead,
    Window.lastRead, h.input.start_eq, h.input.stop_eq, h.input.block_eq, h.input.count_eq]

theorem Alike.channelView_eq (h : Alike s t) : s.channelView = t.channelView := by
  rw [channelView, channelView, h.output.buffer_eq, h.output.bytesWritten_eq]

/-- What sessions that are alike show is the same. -/
theorem lockstep_view {view : Session W → α} (h : ∀ s t, Alike s t → view s = view t) :
    Lockstep Alike (fun s => .ok (view s) s : Action W α) := by
  intro s t hst
  dsimp only
  rw [h s t hst]
  exact .ok _ hst

/-- Every request has the same answer in both sessions. -/
theorem lockstep_answer (request : Request W) : Lockstep Alike (answer request) := by
  cases request with
  | refill minimum maximum => exact lockstep_onInput (Window.lockstep_refill minimum maximum)
  | consume count => exact lockstep_onInput (Window.lockstep_consume count)
  | startsWith literal =>
    refine lockstep_view fun s t h => ?_
    rw [Window.startsWith, Window.startsWith, h.input.peek_eq]
  | peek count => exact lockstep_view fun s t h => h.input.peek_eq count
  | window => exact lockstep_view fun s t h => h.windowView_eq
  | write word count => exact lockstep_onOutput (Channel.lockstep_write word count)
  | writeWords words count => exact lockstep_onOutput (Channel.lockstep_writeWords words count)
  | writeWordsDirect words count =>
    exact lockstep_onOutput (Channel.lockstep_writeWordsDirect words count)
  | writeBuffer source => exact lockstep_onOutput (Channel.lockstep_writeWordsDirect _ _)
  | flush => exact lockstep_onOutput Channel.lockstep_flush
  | pad => exact lockstep_onOutput Channel.lockstep_pad
  | finish => exact lockstep_onOutput Channel.lockstep_finish
  | flushSink => exact lockstep_onOutput Channel.lockstep_flushSink
  | channel => exact lockstep_view fun s t h => h.channelView_eq
  | buffered => exact lockstep_view fun s t h => h.output.buffer_eq
  | config => exact lockstep_view fun s t h => h.config_eq
  | note e => exact lockstep_note e
  | report entry =>
    exact fun _ _ h => .ok () { h with transcript_eq := congrArg (·.push entry) h.transcript_eq }
  | violate cause => exact .violate cause

theorem lockstep_perform (program : Program W α) : Lockstep Alike (perform program) := by
  induction program with
  | done result => exact .pure result
  | ask request next ih => exact .bind (lockstep_answer request) ih

theorem lockstep_conclude (verdict : Verdict) :
    Lockstep Alike (conclude verdict : Action W Outcome) := by
  cases verdict with
  | accept =>
    refine .bind (lockstep_onOutput Channel.lockstep_finish) fun _ => .get_bind fun s t h => ?_
    rw [h.input.count_eq, h.output.bytesWritten_eq]
    exact ⟨rfl, .bind (lockstep_note _) fun _ => .pure _⟩
  | fail =>
    refine .get_bind fun s t h => ⟨by rw [h.input.count_eq], ?_⟩
    exact .bind (lockstep_onOutput Channel.lockstep_flushSink) fun _ =>
      .bind (lockstep_note _) fun _ => .pure _

theorem lockstep_judge (program : Program W Verdict) : Lockstep Alike (judge program) := by
  refine .bind (fun s t h => .ok () { h with transcript_eq := rfl }) fun _ => ?_
  exact .bind (lockstep_perform program) lockstep_conclude

/-! ## Histories -/

/-- All that can be seen of the sessions is the same: the window, the channel with its storage, the
bytes at the sink, the log and the reports. -/
structure SameView (s t : Session W) : Prop where
  windowView_eq : s.windowView = t.windowView
  lookahead_eq : s.input.lookahead = t.input.lookahead
  channelView_eq : s.channelView = t.channelView
  buffer_eq : s.output.buffer = t.output.buffer
  received_eq : s.output.sink.received = t.output.sink.received
  log_eq : s.log = t.log
  transcript_eq : s.transcript = t.transcript

theorem Alike.sameView (h : Alike s t) : SameView s t where
  windowView_eq := h.windowView_eq
  lookahead_eq := h.input.lookahead_eq
  channelView_eq := h.channelView_eq
  buffer_eq := h.output.buffer_eq
  received_eq := h.output.received_eq
  log_eq := h.log_eq
  transcript_eq := h.transcript_eq

/-- The programs made the same request, and nothing that can be seen after it tells one session from
the other. -/
def SameStep (made made' : Request W × Session W) : Prop :=
  made.1 = made'.1 ∧ SameView made.2 made'.2

/-- Both sessions have the same history. -/
theorem Alike.history_sameStep (h : Alike s t) (program : Program W α) :
    List.Forall₂ SameStep (history program s) (history program t) := by
  induction program generalizing s t with
  | done result => exact .nil
  | ask request next ih =>
    have hends := lockstep_answer request s t h
    unfold history
    generalize answer request s = ending at hends ⊢
    generalize answer request t = ending' at hends ⊢
    cases hends with
    -- the answers are equal, so the programs go on alike
    | ok a h' => exact .cons ⟨rfl, h'.sameView⟩ (ih a h')
    | violation cause h' => exact .cons ⟨rfl, h'.sameView⟩ .nil

theorem alike_of_openWith {config : Config} {source source' : Source}
    {acceptances acceptances' : List Acceptance} {flushes flushes' : List (Option String)}
    (hs : openWith W config source (.scheduled acceptances flushes) = .ok s)
    (ht : openWith W config source' (.scheduled acceptances' flushes') = .ok t)
    (hsource : source.Steady) (hsource' : source'.Steady)
    (hpending : source.pending = source'.pending)
    (hsink : (Sink.scheduled acceptances flushes).NeverFails)
    (hsink' : (Sink.scheduled acceptances' flushes').NeverFails) : Alike s t := by
  obtain rfl := eq_of_openWith hs
  obtain rfl := eq_of_openWith ht
  exact {
    input := ⟨rfl, rfl, rfl, rfl, rfl, rfl, hpending, hsource, hsource'⟩
    output := ⟨rfl, rfl, rfl, rfl, hsink, hsink'⟩
    config_eq := rfl
    log_eq := rfl
    transcript_eq := rfl }

/-- Two steady sources with the same bytes and two sinks that never fail cannot be told from each
other: on new sessions between them, a program makes the same requests and sees the same after each
of them, and both runs have the same outcome or break the same contract, with the same bytes at the
sink and as many consumed. -/
theorem ends_alike_on_steady_streams {config : Config} {source source' : Source}
    {acceptances acceptances' : List Acceptance} {flushes flushes' : List (Option String)}
    (hs : openWith W config source (.scheduled acceptances flushes) = .ok s)
    (ht : openWith W config source' (.scheduled acceptances' flushes') = .ok t)
    (hsource : source.Steady) (hsource' : source'.Steady)
    (hpending : source.pending = source'.pending)
    (hsink : (Sink.scheduled acceptances flushes).NeverFails)
    (hsink' : (Sink.scheduled acceptances' flushes').NeverFails) (program : Program W Verdict) :
    List.Forall₂ SameStep (history program s) (history program t) ∧
      EndAlike SameView (judge program s) (judge program t) := by
  have h := alike_of_openWith hs ht hsource hsource' hpending hsink hsink'
  refine ⟨h.history_sameStep program, ?_⟩
  exact (lockstep_judge program s t h).mono fun s t h => h.sameView

/-- Replaces the bytes one and two at the start of the input. -/
def replaceStart : Program .w64 Verdict := do
  if ← Program.refill 2 4 then
    if ← Program.startsWith [1, 2] then
      Program.writeValue 0x123 12
      Program.consume 2
      return .accept
  return .fail

theorem ends_alike_on_split_bytes :
    ∃ s t : Session .w64,
      openWith .w64 ⟨4, 8, 16⟩ (.ofBytes [1, 2, 3, 4, 5]) (.scheduled [] []) = .ok s ∧
      openWith .w64 ⟨4, 8, 16⟩
        (.scheduled [.data [1], .interrupted, .data [2, 3, 4, 5], .pause] (some 2))
        (.scheduled [.take 1, .interrupted, .take 3] [none]) = .ok t ∧
      List.Forall₂ SameStep (history replaceStart s) (history replaceStart t) ∧
      ∃ s' t', judge replaceStart s = .ok .accept s' ∧ judge replaceStart t = .ok .accept t' ∧
        SameView s' t' := by
  let s : Session .w64 := {
    input := .ofBlock (.ofBytes [1, 2, 3, 4, 5]) 4, output := .ofSink (.scheduled [] []) 8,
    config := ⟨4, 8, 16⟩, log := #[], transcript := #[] }
  have hs : openWith .w64 ⟨4, 8, 16⟩ (.ofBytes [1, 2, 3, 4, 5]) (.scheduled [] []) = .ok s := rfl
  have ht : openWith .w64 ⟨4, 8, 16⟩
      (.scheduled [.data [1], .interrupted, .data [2, 3, 4, 5], .pause] (some 2))
      (.scheduled [.take 1, .interrupted, .take 3] [none]) = .ok _ := rfl
  obtain ⟨hhistory, hends⟩ := ends_alike_on_steady_streams hs ht (by decide) (by decide) rfl
    (by decide) (by decide) replaceStart
  obtain ⟨s', hs'⟩ : ∃ s', judge replaceStart s = .ok .accept s' :=
    exists_ok_of_result? (by decide +kernel)
  obtain ⟨t', ht', hsame⟩ := hends.exists_ok hs'
  exact ⟨s, _, hs, ht, hhistory, s', t', hs', ht', hsame⟩

end Session
end BitTransducer
