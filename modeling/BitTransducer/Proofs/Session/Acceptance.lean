import BitTransducer.Proofs.Command.Report
import BitTransducer.Proofs.Session.History

/-! # What an accepted input leaves

A run whose verdict is to accept finishes the output, and whatever fails on the way, at the source,
at a write or when the sink is to flush, keeps it from ending with that outcome. So the outcome
stands for a sink that has all bits that the recognizer wrote.

Main statement: `accepts_iff_faultless`. -/

namespace BitTransducer

variable {W : Width}

/-- The request that is made upon a verdict. -/
def Verdict.closing : Verdict → Request W
  | accept => .finish
  | fail => .flushSink

theorem Verdict.fits_closing (verdict : Verdict) : (verdict.closing : Request W).Fits := by
  cases verdict with
  | accept | fail => trivial

namespace Session

variable {s s₀ s₁ s' : Session W} {requests : List (Request W)}

/-- What follows a verdict extends the books by its closing request, or fails within it. -/
theorem Tally.ends_conclude (h : Tally s₀ s requests) (verdict : Verdict) :
    Ends (conclude verdict s)
      (fun outcome s' => (outcome = .accept ↔ verdict = .accept) ∧
        Tally s₀ s' (requests ++ [verdict.closing]) ∧
        (verdict = .accept → s'.output.Finished))
      (fun _ s' => FailsWithin s₀ s' (requests ++ [verdict.closing])) False := by
  have hfits := verdict.fits_closing (W := W)
  cases verdict with
  | accept =>
    have hfinish := h.ends_call rfl rfl hfits
    refine .bind (hfinish.mono ?_ (fun _ _ h => h) fun hv => hv trivial)
    rintro _ s₁ ⟨htally, hfinished⟩
    exact ⟨by simp, htally.of_eq rfl rfl, fun _ => hfinished rfl⟩
  | fail =>
    have hflush := h.ends_call rfl rfl hfits
    refine .get_bind (.bind (hflush.mono ?_ (fun _ _ h => h) fun hv => hv trivial))
    rintro _ s₁ ⟨htally, -⟩
    exact ⟨by simp, htally.of_eq rfl rfl, nofun⟩

/-- The sink has the `bits`, filled up with zeros to whole words, nothing is left in the buffer, and
the sink flushed after the last byte. -/
structure Complete (s : Session W) (bits : List Bool) : Prop where
  received_eq : Bits.ofBytes s.output.sink.received = Bits.padTo W.bits bits
  bytesWritten_eq : s.output.bytesWritten = s.output.sink.received.length
  finished : s.output.Finished

theorem Fresh.complete (h : Fresh s₀) (h' : Tally s₀ s (requests ++ [.finish]))
    (hfinished : s.output.Finished) : Complete s (emitted requests) where
  received_eq := by
    have hstream := h.stream_tally h'
    rw [Channel.stream, BitBuffer.content, hfinished.position_eq, List.take_zero,
      List.append_nil] at hstream
    rw [hstream, emitted_concat rfl]
    rfl
  bytesWritten_eq := by
    obtain ⟨handedOver, hreceived, hbytes, -⟩ := h'.output.received_eq
    rw [hbytes, hreceived, h.bytesWritten_eq, h.received_eq, List.nil_append, Nat.zero_add]
  finished := hfinished

/-- A run ends with an outcome exactly when nothing fails: with the verdict of the recognizer, if it
comes to one. -/
theorem Fresh.ends_run {recognizer : Recognizer W} (h : Fresh s)
    (hc : Conforms (recognizer s.patience) s) :
    Ends (run recognizer s)
      (fun outcome s' => Faultless s s' ∧
        (outcome = .accept ↔ ∃ s₁, perform (recognizer s.patience) s = .ok .accept s₁) ∧
        (outcome = .accept → Complete s' (emitted (asked (recognizer s.patience) s))))
      (fun _ s' => ¬ Faultless s s') False := by
  rw [h.run_eq]
  refine .bind ?_
  rcases h.perform_cases hc with ⟨e, s₁, hperform, hfails⟩ | ⟨verdict, s₁, hperform, htally⟩
  · rw [hperform]
    exact hfails.1
  · rw [hperform]
    refine (htally.ends_conclude verdict).mono ?_ (fun _ _ h => h.1) id
    rintro outcome s' ⟨hiff, htally', hfinished⟩
    refine ⟨htally'.faultless, ?_, fun houtcome => ?_⟩
    · rw [hiff]
      simp
    · obtain rfl := hiff.1 houtcome
      exact h.complete htally' (hfinished rfl)

end Session

/-! ## Exit statuses -/

namespace Command

variable {W : Width} {config : Config} {source : Source} {sink : Sink} {s s' : Session W}

/-- The completion of a command that runs is that of its session. -/
theorem completion_execute (h : Session.openWith W config source sink = .ok s)
    (recognizer : Recognizer W) (timing : Bool) (info : String) :
    (execute (.run timing) recognizer info config source sink).completion =
      match Session.run recognizer s with
      | .ok result _ => .ok (.outcome result)
      | .error (.error cause) _ => .ok (.failure cause)
      | .error (.violation cause) _ => .error cause := by
  rw [execute, h]
  dsimp only
  cases hrun : Session.run recognizer s with
  | ok result s' => rfl
  | error failure s' => cases failure <;> rfl

/-- The exit status that a command leads to, unless its recognizer breaks a contract. -/
def exitStatus (mode : Mode) (elapsed : String) (diagnostics : Sink) (e : Execution) :
    Except Violation ExitStatus :=
  e.completion.map fun completion => (completion.conclude mode elapsed diagnostics).1

/-- A run is successful exactly when it accepts. -/
theorem exitStatus_eq_success_iff (h : Session.openWith W config source sink = .ok s)
    (recognizer : Recognizer W) (timing : Bool) (info elapsed : String) (diagnostics : Sink) :
    exitStatus (.run timing) elapsed diagnostics
        (execute (.run timing) recognizer info config source sink) = .ok .success ↔
      ∃ s', Session.run recognizer s = .ok .accept s' := by
  rw [exitStatus, completion_execute h]
  simp only [fst_conclude]
  constructor
  · intro hstatus
    cases hrun : Session.run recognizer s with
    | ok outcome s' =>
      cases outcome with
      | accept => exact ⟨s', rfl⟩
      | fail position => simp [hrun, Except.map, Completion.status] at hstatus
    | error failure s' =>
      cases failure <;> simp [hrun, Except.map, Completion.status] at hstatus
  · rintro ⟨s', hrun⟩
    rw [hrun]
    rfl

end Command

namespace Session

variable {W : Width} {s : Session W}

/-- For every source and every sink, a recognizer that keeps to the contracts is run to an end, and
the outcome is to accept exactly when its verdict is and nothing failed, neither while it ran nor
when the output was finished. Then the sink has exactly the bits that it wrote, filled up with
zeros, and these are the runs that the command calls successful, whatever the diagnostic stream
does. -/
theorem accepts_iff_faultless {config : Config} {source : Source} {acceptances : List Acceptance}
    {flushes : List (Option String)} {recognizer : Recognizer W}
    (h : openWith W config source (.scheduled acceptances flushes) = .ok s)
    (hc : Conforms (recognizer s.patience) s) :
    ∃ error? s', Returns (run recognizer) s error? s' ∧
      (run recognizer s = .ok .accept s' ↔
        (∃ s₁, perform (recognizer s.patience) s = .ok .accept s₁) ∧ Faultless s s') ∧
      (run recognizer s = .ok .accept s' →
        Complete s' (emitted (asked (recognizer s.patience) s))) ∧
      ∀ timing info elapsed diagnostics,
        Command.exitStatus (.run timing) elapsed diagnostics (Command.execute (.run timing)
            recognizer info config source (.scheduled acceptances flushes)) = .ok .success ↔
          run recognizer s = .ok .accept s' := by
  have hends := (fresh_of_openWith h rfl).ends_run hc
  have hstatus := Command.exitStatus_eq_success_iff h recognizer
  obtain ⟨error?, s', hr⟩ := hends.exists_returns id
  refine ⟨error?, s', hr, ?_⟩
  cases error? with
  | none =>
    obtain ⟨outcome, hrun⟩ := hr
    rw [hrun] at hends
    obtain ⟨hfaultless, hverdict, hcomplete⟩ := hends
    have haccept : run recognizer s = .ok .accept s' ↔ outcome = .accept := by simp [hrun]
    refine ⟨?_, ?_, fun timing info elapsed diagnostics => ?_⟩
    · rw [haccept, hverdict]
      exact (and_iff_left hfaultless).symm
    · rw [haccept]
      exact hcomplete
    · rw [hstatus, haccept, hrun]
      simp
  | some e =>
    -- a run that failed neither accepted nor was faultless, so all sides are false
    have hrun : run recognizer s = .error (.error e) s' := hr
    rw [hrun] at hends
    have haccept : ∀ s'', run recognizer s ≠ .ok .accept s'' := by simp [hrun]
    refine ⟨?_, ?_, fun timing info elapsed diagnostics => ?_⟩
    · exact iff_of_false (haccept s') fun hand => hends hand.2
    · exact fun haccepts => absurd haccepts (haccept s')
    · rw [hstatus]
      exact iff_of_false (fun ⟨s'', hs''⟩ => haccept s'' hs'') (haccept s')

/-- Copies the first two bytes of the input before the verdict. -/
def copyTwo (verdict : Verdict) : Recognizer .w32 := fun _ => do
  if ← Program.refill 2 2 then
    (← Program.peek 2).forM fun byte => Program.writeValue byte.toNat 8
    Program.consume 2
  return verdict

/-- A source that brings a byte at a time, with an interruption. -/
def slow : Source := .scheduled [.data [0xab], .interrupted, .data [0xcd, 0xef]] (some 1)

theorem accepts_at_slow_streams :
    ∃ s s' : Session .w32,
      openWith .w32 ⟨4, 4, 8⟩ slow (.scheduled [.take 3, .interrupted] []) = .ok s ∧
      run (copyTwo .accept) s = .ok .accept s' ∧ Faultless s s' ∧
      Complete s' (Bits.ofBytes [0xab, 0xcd]) := by
  let s : Session .w32 := {
    input := .ofBlock slow 4, output := .ofSink (.scheduled [.take 3, .interrupted] []) 4,
    config := ⟨4, 4, 8⟩, log := #[], transcript := #[] }
  have h : openWith .w32 ⟨4, 4, 8⟩ slow (.scheduled [.take 3, .interrupted] []) = .ok s := rfl
  have hasked : asked (copyTwo .accept s.patience) s =
      [.refill 2 2, .peek 2, .write 0xab000000 8, .write 0xcd000000 8, .consume 2] := by
    with_unfolding_all rfl
  obtain ⟨s₁, hrun⟩ : ∃ s₁, run (copyTwo .accept) s = .ok .accept s₁ :=
    exists_ok_of_result? (by decide +kernel)
  obtain ⟨s₂, hperform⟩ : ∃ s₂, perform (copyTwo .accept s.patience) s = .ok .accept s₂ :=
    exists_ok_of_result? (by decide +kernel)
  have hc : Conforms (copyTwo .accept s.patience) s := by
    constructor
    · rw [hasked]
      decide
    · exact ⟨none, s₂, .accept, hperform⟩
  obtain ⟨error?, s', hr, hiff, hcomplete, -⟩ := accepts_iff_faultless h hc
  obtain rfl := hr.eq_of_ok hrun
  rw [hasked] at hcomplete
  exact ⟨s, _, h, hrun, (hiff.1 hrun).2, hcomplete hrun⟩

end Session
end BitTransducer
