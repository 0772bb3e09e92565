import BitTransducer.Proofs.Session.Acceptance

/-! # What is left when the input is not accepted

However a run ends, the sink has a first part of the bits that were to be written, as far as it took
them. After a mismatch nothing is added to them: all that happens is that the sink is asked to
flush, and the outcome tells how many bytes were consumed.

Main statement: `leaves_prefix_of_attempted`. -/

namespace BitTransducer
namespace Session

variable {W : Width} {s s₀ s₁ s' : Session W} {requests : List (Request W)}

/-- The bits that a run attempts to write: those of its program, filled up with zeros to whole words
upon the verdict to accept. -/
def attempted (program : Program W Verdict) (s : Session W) : List Bool :=
  match perform program s with
  | .ok .accept _ => Bits.padTo W.bits (emitted (asked program s))
  | _ => emitted (asked program s)

theorem attempted_of_ok {program : Program W Verdict} {verdict : Verdict}
    (h : perform program s = .ok verdict s₁) :
    attempted program s = emitted (asked program s ++ [verdict.closing]) := by
  rw [attempted, h]
  cases verdict with
  | accept =>
    rw [emitted_concat rfl]
    rfl
  | fail =>
    rw [emitted_concat rfl]
    exact (List.append_nil _).symm

theorem attempted_of_error {program : Program W Verdict} {failure : Failure StreamError}
    (h : perform program s = .error failure s₁) :
    attempted program s = emitted (asked program s) := by
  rw [attempted, h]

theorem Fresh.ends_run_isPrefix {recognizer : Recognizer W} (h : Fresh s)
    (hc : Conforms (recognizer s.patience) s) :
    Ends (run recognizer s)
      (fun _ s' => Bits.ofBytes s'.output.sink.received <+: attempted (recognizer s.patience) s)
      (fun _ s' => Bits.ofBytes s'.output.sink.received <+: attempted (recognizer s.patience) s)
      False := by
  rw [h.run_eq]
  refine .bind ?_
  rcases h.perform_cases hc with ⟨e, s₁, hperform, hfails⟩ | ⟨verdict, s₁, hperform, htally⟩
  · rw [attempted_of_error hperform, hperform]
    exact h.isPrefix_of_leavesPrefix hfails.2
  · rw [attempted_of_ok hperform, hperform]
    refine (htally.ends_conclude verdict).mono ?_ ?_ id
    · rintro _ s' ⟨-, htally', -⟩
      exact h.isPrefix_of_leavesPrefix htally'.output.leavesPrefix
    · intro _ s' hfails
      exact h.isPrefix_of_leavesPrefix hfails.2

/-- Nothing happened but a request to the sink to flush, which it did if `done`. -/
structure AsksFlush (s s' : Session W) (done : Bool) : Prop where
  source_eq : s'.input.source = s.input.source
  output : s.output.AsksFlush s'.output done

/-- A mismatch has the sink flushed, and fails when that does. -/
theorem ends_conclude_fail (hs : s.output.buffer.Sound) :
    Ends (conclude .fail s)
      (fun outcome s' => outcome = .fail s.input.count ∧ AsksFlush s s' true)
      (fun e s' => (∃ text, e = .write text) ∧ AsksFlush s s' false) False := by
  refine .get_bind (.bind (ends_onOutput ((Channel.ends_flushSink hs).mono ?_ ?_ id)))
  · rintro _ output ⟨-, hflush⟩
    exact ⟨rfl, rfl, hflush.buffer_eq, hflush.bytesWritten_eq, hflush.sink⟩
  · rintro e output ⟨-, hflush, htext⟩
    exact ⟨htext, rfl, hflush.buffer_eq, hflush.bytesWritten_eq, hflush.sink⟩

/-- The outcome of a run that ended after the verdict that the input does not match. -/
theorem Fresh.run_of_fail {recognizer : Recognizer W} (h : Fresh s)
    (hc : Conforms (recognizer s.patience) s)
    (hperform : perform (recognizer s.patience) s = .ok .fail s₁) :
    Ends (run recognizer s)
      (fun outcome s' => outcome = .fail (consumed (asked (recognizer s.patience) s)) ∧
        AsksFlush s₁ s' true)
      (fun e s' => (∃ text, e = .write text) ∧ AsksFlush s₁ s' false) False := by
  have hrun : run recognizer s = conclude .fail s₁ := (h.run_eq _).trans (bind_of_ok hperform)
  rcases h.perform_cases hc with ⟨e, s₂, herror, -⟩ | ⟨verdict, s₂, hok, htally⟩
  · cases hperform.symm.trans herror
  · obtain ⟨-, rfl⟩ := EStateM.Result.ok.inj (hperform.symm.trans hok)
    rw [hrun, ← h.count_tally htally]
    exact ends_conclude_fail htally.output.sound

end Session

/-- The command says that the input did not match after `position` bytes: whatever the diagnostic
stream does, the exit status is that of a mismatch, and the stream is left with what it had and the
line that names the position, or with a first part of the line if the stream fails. -/
def Command.ReportsMismatch (timing : Bool) (e : Execution) (position : Nat) : Prop :=
  ∀ elapsed diagnostics, ∃ diagnostics',
    e.completion.map (Completion.conclude (.run timing) elapsed diagnostics) =
      .ok (.matchError, diagnostics') ∧
    Gains diagnostics diagnostics' s!"Match error at input symbol {position}!\n"

namespace Session

/-- For every source and every sink, a recognizer that keeps to the contracts leaves at the sink a
first part of the bits that it attempted to write, those of a failing request included. After its
verdict that the input does not match, all that happens is one request to the sink to flush. If the
sink does, the outcome says how many bytes were consumed, and so does the command. -/
theorem leaves_prefix_of_attempted {config : Config} {source : Source}
    {acceptances : List Acceptance} {flushes : List (Option String)} {recognizer : Recognizer W}
    (h : openWith W config source (.scheduled acceptances flushes) = .ok s)
    (hc : Conforms (recognizer s.patience) s) :
    ∃ error? s', Returns (run recognizer) s error? s' ∧
      Bits.ofBytes s'.output.sink.received <+: attempted (recognizer s.patience) s ∧
      ∀ s₁, perform (recognizer s.patience) s = .ok .fail s₁ →
        ∃ done, AsksFlush s₁ s' done ∧
          if done then
            run recognizer s = .ok (.fail (consumed (asked (recognizer s.patience) s))) s' ∧
            ∀ timing info, Command.ReportsMismatch timing
              (Command.execute (.run timing) recognizer info config source
                (.scheduled acceptances flushes))
              (consumed (asked (recognizer s.patience) s))
          else ∃ text, run recognizer s = .error (.error (.write text)) s' := by
  have hfresh := fresh_of_openWith h rfl
  have hends := hfresh.ends_run_isPrefix hc
  obtain ⟨error?, s', hr⟩ := hends.exists_returns id
  refine ⟨error?, s', hr, ?_, fun s₁ hperform => ?_⟩
  · rcases hends.of_returns hr with ⟨-, -, hleaves⟩ | ⟨-, -, hleaves⟩
    · exact hleaves
    · exact hleaves
  have hfail := hfresh.run_of_fail hc hperform
  -- the run went on from `s₁` with the flush alone, so its ending is that of the flush
  cases error? with
  | none =>
    obtain ⟨outcome, hrun⟩ := hr
    rw [hrun] at hfail
    obtain ⟨rfl, hflush⟩ := hfail
    refine ⟨true, hflush, hrun, fun timing info elapsed diagnostics => ?_⟩
    rw [Command.completion_execute h, hrun, ← Command.Completion.diagnostic_fail]
    obtain ⟨diagnostics', hconclude, hgains⟩ :=
      Command.Completion.conclude_reports (.outcome (.fail _)) (.run timing) elapsed diagnostics
    exact ⟨diagnostics', congrArg Except.ok hconclude, hgains⟩
  | some e =>
    have hrun : run recognizer s = .error (.error e) s' := hr
    rw [hrun] at hfail
    obtain ⟨⟨text, rfl⟩, hflush⟩ := hfail
    exact ⟨false, hflush, text, hrun⟩

/-- After two bytes the input is refused; the bits that were buffered for them stay there, and the
command says so where it is heard. -/
theorem leaves_buffered_bits :
    ∃ s s₁ s' : Session .w32,
      openWith .w32 ⟨4, 4, 8⟩ slow (.scheduled [.failure "never asked"] []) = .ok s ∧
      perform (copyTwo .fail s.patience) s = .ok .fail s₁ ∧ AsksFlush s₁ s' true ∧
      run (copyTwo .fail) s = .ok (.fail 2) s' ∧
      ∃ diagnostics, (Command.execute (.run false) (copyTwo .fail) "" ⟨4, 4, 8⟩ slow
          (.scheduled [.failure "never asked"] [])).completion.map
            (Command.Completion.conclude (.run false) "0" .accepting) =
          .ok (.matchError, diagnostics) ∧
        diagnostics.received = Utf8.encode "Match error at input symbol 2!\n" := by
  let s : Session .w32 := {
    input := .ofBlock slow 4, output := .ofSink (.scheduled [.failure "never asked"] []) 4,
    config := ⟨4, 4, 8⟩, log := #[], transcript := #[] }
  have h : openWith .w32 ⟨4, 4, 8⟩ slow (.scheduled [.failure "never asked"] []) = .ok s := rfl
  have hasked : asked (copyTwo .fail s.patience) s =
      [.refill 2 2, .peek 2, .write 0xab000000 8, .write 0xcd000000 8, .consume 2] := by
    with_unfolding_all rfl
  obtain ⟨s₁, hperform⟩ : ∃ s₁, perform (copyTwo .fail s.patience) s = .ok .fail s₁ :=
    exists_ok_of_result? (by decide +kernel)
  obtain ⟨s₂, hrun⟩ : ∃ s₂, run (copyTwo .fail) s = .ok (.fail 2) s₂ :=
    exists_ok_of_result? (by decide +kernel)
  have hc : Conforms (copyTwo .fail s.patience) s := by
    constructor
    · rw [hasked]
      decide
    · exact ⟨none, s₁, .fail, hperform⟩
  obtain ⟨error?, s', hr, -, hrefused⟩ := leaves_prefix_of_attempted h hc
  obtain ⟨done, hflush, hreports⟩ := hrefused s₁ hperform
  obtain rfl := hr.eq_of_ok hrun
  cases done with
  | true =>
    have hposition : consumed (asked (copyTwo .fail s.patience) s) = 2 := by
      rw [hasked]
      rfl
    rw [hposition] at hreports
    obtain ⟨diagnostics, hconclude, taken, hreceived, -, hall⟩ :=
      hreports.2 false "" "0" Sink.accepting
    rw [hall (by decide)] at hreceived
    exact ⟨s, s₁, _, h, hperform, hflush, hrun, diagnostics, hconclude, hreceived⟩
  | false =>
    obtain ⟨text, herror⟩ := hreports
    cases hrun.symm.trans herror

end Session
end BitTransducer
