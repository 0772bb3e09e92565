import BitTransducer.Sink

/-! # What becomes of bytes offered to a sink

An entry of a sink's journal is `Done` when all that was asked for happened, and `Failed` when not:
a delivery that failed brought a proper part of its bytes to the sink. `Extends` says what happened
at a sink between two of its states.

Main statements: `writeAll_cases` and `flush_cases` (each is one entry, which is done when the step
succeeds and failed when it fails, and nothing fails at a sink that `NeverFails`). -/

namespace BitTransducer

namespace Acceptance

/-- A request that is answered so does not fail a delivery. -/
def Proceeds : Acceptance → Prop
  | take count => 0 < count
  | interrupted => True
  | failure _ => False

instance : DecidablePred Proceeds
  | take _ => inferInstanceAs (Decidable (_ < _))
  | interrupted => inferInstanceAs (Decidable True)
  | failure _ => inferInstanceAs (Decidable False)

end Acceptance

namespace SinkEntry

/-- All that was asked for happened: all offered bytes were taken, or the sink was flushed. -/
def Done : SinkEntry → Prop
  | delivery offered accepted _ => accepted = offered.length
  | flush done => done = true

/-- Not all that was asked for happened: fewer bytes were taken than offered, or the sink was not
flushed. -/
def Failed : SinkEntry → Prop
  | delivery offered accepted _ => accepted < offered.length
  | flush done => done = false

/-- The bytes of a delivery that succeeded, none of others. -/
def handedOver : SinkEntry → List UInt8
  | delivery offered accepted _ => if accepted = offered.length then offered else []
  | flush _ => []

theorem Done.received_eq {e : SinkEntry} (h : e.Done) : e.received = e.handedOver := by
  cases e with
  | delivery offered accepted requests =>
    rw [Done] at h
    rw [received, handedOver, if_pos h, h, List.take_length]
  | flush done => rfl

theorem Failed.handedOver_eq {e : SinkEntry} (h : e.Failed) : e.handedOver = [] := by
  cases e with
  | delivery offered accepted requests => exact if_neg (Nat.ne_of_lt h)
  | flush done => rfl

end SinkEntry

namespace Sink

/-- Neither a delivery to the sink nor a flush of it fails. -/
def NeverFails (s : Sink) : Prop :=
  (∀ a ∈ s.acceptances, a.Proceeds) ∧ ∀ failure? ∈ s.flushes, failure? = none

instance (s : Sink) : Decidable s.NeverFails := inferInstanceAs (Decidable (_ ∧ _))

/-- Between `s` and `s'`, the `entries` happened and the schedule was used up in order. -/
structure Extends (s s' : Sink) (entries : List SinkEntry) : Prop where
  journal_eq : s'.journal.toList = s.journal.toList ++ entries
  acceptances : s'.acceptances <:+ s.acceptances
  flushes : s'.flushes <:+ s.flushes

theorem entriesFrom_eq_drop (s : Sink) (start : Nat) :
    s.entriesFrom start = s.journal.toList.drop start := by
  rw [entriesFrom, Array.toList_extract, List.extract_eq_take_drop]
  exact List.take_of_length_le (by simp)

theorem received_eq (s : Sink) : s.received = s.journal.toList.flatMap SinkEntry.received := by
  rw [received, receivedFrom, entriesFrom_eq_drop, List.drop_zero]

namespace Extends

variable {s s' s'' : Sink} {entries entries' : List SinkEntry}

theorem refl (s : Sink) : s.Extends s [] :=
  ⟨(List.append_nil _).symm, List.suffix_refl _, List.suffix_refl _⟩

theorem trans (h : s.Extends s' entries) (h' : s'.Extends s'' entries') :
    s.Extends s'' (entries ++ entries') where
  journal_eq := by rw [h'.journal_eq, h.journal_eq, List.append_assoc]
  acceptances := h'.acceptances.trans h.acceptances
  flushes := h'.flushes.trans h.flushes

theorem neverFails (h : s.Extends s' entries) (hs : s.NeverFails) : s'.NeverFails :=
  ⟨fun a ha => hs.1 a (h.acceptances.subset ha), fun f hf => hs.2 f (h.flushes.subset hf)⟩

theorem entriesFrom_eq (h : s.Extends s' entries) : s'.entriesFrom s.journal.size = entries := by
  rw [entriesFrom_eq_drop, h.journal_eq, List.drop_left' (by rw [Array.length_toList])]

theorem received_eq (h : s.Extends s' entries) :
    s'.received = s.received ++ entries.flatMap SinkEntry.received := by
  rw [Sink.received_eq, Sink.received_eq, h.journal_eq, List.flatMap_append]

end Extends

/-! ## Offers -/

theorem left_offer_suffix (schedule : List Acceptance) (count : Nat) :
    (offer schedule count).left <:+ schedule := by
  fun_induction offer schedule count with
  | case1 schedule => exact List.suffix_refl _
  | case2 => exact List.suffix_refl _
  | case3 schedule count _ next ih => exact ih.trans (List.suffix_cons ..)
  | case4 => exact List.suffix_cons ..
  | case5 => exact List.suffix_cons ..
  | case6 schedule n count _ taken _ next ih => exact ih.trans (List.suffix_cons ..)

theorem accepted_offer_eq {schedule : List Acceptance} {count : Nat}
    (h : (offer schedule count).failure? = none) : (offer schedule count).accepted = count := by
  fun_induction offer schedule count with
  | case1 schedule => rfl
  | case2 => rfl
  | case3 schedule count _ next ih => exact ih h
  | case4 => simp at h
  | case5 => simp at h
  | case6 schedule n count _ taken _ next ih =>
    have := ih h
    simp only [next, taken] at this ⊢
    omega

/-- An offer that fails is accepted in part only, and the schedule says so. -/
theorem accepted_offer_lt {schedule : List Acceptance} {count : Nat} {text : String}
    (h : (offer schedule count).failure? = some text) :
    (offer schedule count).accepted < count ∧ ∃ a ∈ schedule, ¬ a.Proceeds := by
  fun_induction offer schedule count with
  | case1 schedule => simp at h
  | case2 => simp at h
  | case3 schedule count _ next ih =>
    obtain ⟨hlt, a, ha, hp⟩ := ih h
    exact ⟨hlt, a, List.mem_cons_of_mem _ ha, hp⟩
  | case4 failed schedule count h0 =>
    exact ⟨Nat.pos_of_ne_zero (by simpa using h0), _, List.mem_cons_self, id⟩
  | case5 n schedule count hc taken ht =>
    have hpos : 0 < count := Nat.pos_of_ne_zero hc
    have hn : n = 0 := by simp only [taken] at ht; omega
    exact ⟨hpos, _, List.mem_cons_self, by simp [Acceptance.Proceeds, hn]⟩
  | case6 schedule n count _ taken _ next ih =>
    obtain ⟨hlt, a, ha, hp⟩ := ih h
    refine ⟨?_, a, List.mem_cons_of_mem _ ha, hp⟩
    simp only [next, taken] at hlt ⊢
    omega

/-! ## Steps -/

theorem writeAll_cases (s : Sink) {bytes : List UInt8} (hb : bytes ≠ []) :
    (∃ s' requests, writeAll bytes s = .ok () s' ∧
      s.Extends s' [.delivery bytes bytes.length requests]) ∨
    ∃ text s' accepted requests, writeAll bytes s = .error text s' ∧ accepted < bytes.length ∧
      s.Extends s' [.delivery bytes accepted requests] ∧ ¬ s.NeverFails := by
  have he : bytes.isEmpty = false := by simpa using hb
  have hsuffix := left_offer_suffix s.acceptances bytes.length
  cases hf : (offer s.acceptances bytes.length).failure? with
  | none =>
    have haccepted := accepted_offer_eq hf
    have hw : writeAll bytes s = .ok ()
        ⟨(offer s.acceptances bytes.length).left, s.flushes, s.journal.push
          (.delivery bytes bytes.length (offer s.acceptances bytes.length).requests)⟩ := by
      simp only [writeAll, he, hf, haccepted, Bool.false_eq_true, if_false]
    exact .inl ⟨_, _, hw, Array.toList_push .., hsuffix, List.suffix_refl _⟩
  | some text =>
    obtain ⟨hlt, a, ha, hp⟩ := accepted_offer_lt hf
    have hw : writeAll bytes s = .error text
        ⟨(offer s.acceptances bytes.length).left, s.flushes, s.journal.push
          (.delivery bytes (offer s.acceptances bytes.length).accepted
            (offer s.acceptances bytes.length).requests)⟩ := by
      simp only [writeAll, he, hf, Bool.false_eq_true, if_false]
    exact .inr ⟨text, _, _, _, hw, hlt, ⟨Array.toList_push .., hsuffix, List.suffix_refl _⟩,
      fun hs => hp (hs.1 a ha)⟩

theorem flush_cases (s : Sink) :
    (∃ s', flush s = .ok () s' ∧ s.Extends s' [.flush true]) ∨
    ∃ text s', flush s = .error text s' ∧ s.Extends s' [.flush false] ∧ ¬ s.NeverFails := by
  obtain ⟨acceptances, flushes, journal⟩ := s
  unfold flush
  dsimp only
  split
  · rename_i text flushes
    refine .inr ⟨_, _, rfl, ⟨Array.toList_push .., List.suffix_refl _, List.suffix_cons ..⟩, ?_⟩
    exact fun hs => nomatch hs.2 _ List.mem_cons_self
  · exact .inl ⟨_, rfl, Array.toList_push .., List.suffix_refl _, List.drop_suffix ..⟩

/-- However a delivery ends, the sink took a first part of the bytes. -/
theorem exists_received_writeAll (s : Sink) (bytes : List UInt8) :
    (∃ s', writeAll bytes s = .ok () s' ∧ s'.received = s.received ++ bytes ∧
      (s.NeverFails → s'.NeverFails)) ∨
    ∃ text s' taken, writeAll bytes s = .error text s' ∧ s'.received = s.received ++ taken ∧
      taken <+: bytes ∧ ¬ s.NeverFails := by
  cases bytes with
  | nil => exact .inl ⟨s, rfl, (List.append_nil _).symm, id⟩
  | cons byte bytes =>
    rcases s.writeAll_cases (List.cons_ne_nil byte bytes) with
      ⟨s', requests, hok, hsink⟩ | ⟨text, s', accepted, requests, herror, -, hsink, hn⟩
    · refine .inl ⟨s', hok, ?_, hsink.neverFails⟩
      rw [hsink.received_eq, List.flatMap_singleton, SinkEntry.received, List.take_length]
    · refine .inr ⟨text, s', _, herror, ?_, List.take_prefix accepted _, hn⟩
      rw [hsink.received_eq, List.flatMap_singleton, SinkEntry.received]

/-- A sink that never fails takes all that it is offered. -/
theorem NeverFails.writeAll_eq {s : Sink} (hs : s.NeverFails) (bytes : List UInt8) :
    ∃ s', writeAll bytes s = .ok () s' ∧ s'.received = s.received ++ bytes ∧ s'.NeverFails := by
  rcases s.exists_received_writeAll bytes with ⟨s', hok, hreceived, hs'⟩ | ⟨_, _, _, _, _, _, hn⟩
  · exact ⟨s', hok, hreceived, hs' hs⟩
  · exact absurd hs hn

theorem NeverFails.flush_eq {s : Sink} (hs : s.NeverFails) :
    ∃ s', flush s = .ok () s' ∧ s'.received = s.received ∧ s'.NeverFails := by
  rcases s.flush_cases with ⟨s', hok, hsink⟩ | ⟨_, _, _, _, hn⟩
  · refine ⟨s', hok, ?_, hsink.neverFails hs⟩
    rw [hsink.received_eq, List.flatMap_singleton, SinkEntry.received, List.append_nil]
  · exact absurd hs hn

end Sink
end BitTransducer
