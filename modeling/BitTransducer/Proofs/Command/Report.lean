import BitTransducer.Command.Execute
import BitTransducer.Proofs.Outcome
import BitTransducer.Proofs.Sink.Delivery

/-! # What is left on the diagnostic stream

A command ends by writing its diagnostic line piece by piece. However often that stream is asked, it
is left with what it had and the line, or with a first part of the line if a request fails. The exit
status does not depend on it.

Main statement: `Completion.conclude_reports`. -/

namespace BitTransducer
namespace Command

/-- `s'` has what `s` had and then a text, or a first part of the text if `s` fails. -/
def Gains (s s' : Sink) (text : String) : Prop :=
  ∃ taken, s'.received = s.received ++ taken ∧ taken <+: Utf8.encode text ∧
    (s.NeverFails → taken = Utf8.encode text)

/-- However the writing of a text ends, it is its pieces in order that the sink took. -/
theorem exists_received_writePieces (pieces : List String) (s : Sink) :
    (∃ s', writePieces pieces s = .ok () s' ∧
      s'.received = s.received ++ pieces.flatMap Utf8.encode) ∨
    ∃ error s' taken, writePieces pieces s = .error error s' ∧
      s'.received = s.received ++ taken ∧ taken <+: pieces.flatMap Utf8.encode ∧
      ¬ s.NeverFails := by
  induction pieces generalizing s with
  | nil => exact .inl ⟨s, rfl, (List.append_nil _).symm⟩
  | cons piece pieces ih =>
    rw [List.flatMap_cons]
    rcases s.exists_received_writeAll (Utf8.encode piece) with
      ⟨s₁, hok, hreceived, hn⟩ | ⟨error, s', taken, herror, hreceived, htaken, hfails⟩
    · have hrest : writePieces (piece :: pieces) s = writePieces pieces s₁ := bind_of_ok hok
      rcases ih s₁ with ⟨s', hok', hreceived'⟩ | ⟨error, s', taken, herror, hreceived', htaken, hf⟩
      · exact .inl ⟨s', hrest.trans hok', by rw [hreceived', hreceived, List.append_assoc]⟩
      · have hprefix := (List.prefix_append_right_inj (Utf8.encode piece)).2 htaken
        refine .inr ⟨error, s', _, hrest.trans herror, ?_, hprefix, fun hs => hf (hn hs)⟩
        rw [hreceived', hreceived, List.append_assoc]
    · have hpieces : writePieces (piece :: pieces) s = .error error s' := bind_of_error herror
      have hprefix := htaken.trans (List.prefix_append _ (pieces.flatMap Utf8.encode))
      exact .inr ⟨error, s', taken, hpieces, hreceived, hprefix, hfails⟩

/-- A command ends with the exit status of its completion, whatever the diagnostic stream does, and
leaves the diagnostic line there. -/
theorem Completion.conclude_reports (c : Completion) (mode : Mode) (elapsed : String)
    (diagnostics : Sink) :
    ∃ diagnostics', c.conclude mode elapsed diagnostics = (c.status, diagnostics') ∧
      Gains diagnostics diagnostics' (c.diagnostic mode elapsed) := by
  unfold conclude Gains
  rw [diagnostic, Utf8.encode_join]
  rcases exists_received_writePieces (c.pieces mode elapsed) diagnostics with
    ⟨diagnostics', hok, hreceived⟩ | ⟨_, diagnostics', taken, herror, hreceived, htaken, hfails⟩
  · rw [hok]
    exact ⟨diagnostics', rfl, _, hreceived, List.prefix_refl _, fun _ => rfl⟩
  · rw [herror]
    exact ⟨diagnostics', rfl, taken, hreceived, htaken, fun hs => absurd hs hfails⟩

/-- Nothing about the diagnostic stream changes the exit status. -/
theorem fst_conclude (completion : Completion) (mode : Mode) (elapsed : String)
    (diagnostics : Sink) :
    (completion.conclude mode elapsed diagnostics).1 = completion.status := by
  obtain ⟨diagnostics', hconclude, -⟩ := completion.conclude_reports mode elapsed diagnostics
  rw [hconclude]

/-- The line about an error gives its text. -/
theorem Completion.diagnostic_failure (cause : StreamError) (mode : Mode) (elapsed : String) :
    (failure cause).diagnostic mode elapsed = s!"Error: {cause.message}\n" := by
  rw [diagnostic, pieces, String.join_cons, String.join_append]
  rfl

/-- The line about a mismatch. -/
theorem Completion.diagnostic_fail (position : Nat) (mode : Mode) (elapsed : String) :
    (outcome (.fail position)).diagnostic mode elapsed =
      s!"Match error at input symbol {position}!\n" := by
  rw [diagnostic, pieces, String.join_cons, String.join_cons, String.join_cons, String.join_nil,
    String.append_empty, ← String.append_assoc]
  rfl

end Command
end BitTransducer
