import BitTransducer.Proofs.Window.Steps

/-! # Accounting for what a source delivers

A run of a window is a list of calls that returned, each with its error if it failed. However the
source behaves, it is accounted for every byte that it delivered: those that were consumed, followed
by the lookahead, are what it delivered during the calls that succeeded, and only what it delivered
during a call that failed is lost.

Main statement: `Run.accounts_for_deliveries`. -/

namespace BitTransducer
namespace Window

variable {source : Source} {block : Nat} {w w' : Window}

inductive Call
  | refill (minimum maximum : Nat)
  | consume (count : Nat)

namespace Call

/-- Refills ask for bytes in order and for no more than a block, and only available bytes are
consumed. -/
def Valid (w : Window) : Call → Prop
  | refill minimum maximum => minimum ≤ maximum ∧ maximum ≤ w.block
  | consume count => count ≤ w.available

instance (w : Window) : DecidablePred (Valid w)
  | refill .. => inferInstanceAs (Decidable (_ ∧ _))
  | consume _ => inferInstanceAs (Decidable (_ ≤ _))

def run : Call → Action Unit
  | refill minimum maximum => discard (Window.refill minimum maximum)
  | consume count => Window.consume count

/-- Whether the call finds too few bytes available, so that it asks the source for more. -/
def Reads (w : Window) : Call → Prop
  | refill _ maximum => w.available < maximum
  | consume _ => False

def consumed (w : Window) : Call → List UInt8
  | refill .. => []
  | consume count => w.peek count

/-- A call that succeeds puts what the source delivered behind the lookahead and takes what it
consumes from the front; one that fails is a refill and keeps the lookahead. No valid call breaks
its contract. -/
theorem ends_run (hs : w.Sound) (call : Call) :
    Ends (call.run w)
      (fun _ w' => (w'.Sound ∧ w'.block = w.block) ∧ (¬ call.Reads w → w'.source = w.source) ∧
        w'.count = w.count + (call.consumed w).length ∧
        ∃ bytes, w.source.Delivers bytes w'.source ∧
          call.consumed w ++ w'.lookahead = w.lookahead ++ bytes)
      (fun _ w' => call.Reads w ∧ call.consumed w = [] ∧ Gains w w' [] ∧
        (∃ lost, w.source.Delivers lost w'.source) ∧
        w'.lastRead = 0 ∧ w'.cursor = -w'.available)
      (¬ call.Valid w) := by
  cases call with
  | refill minimum maximum =>
    have hfill := w.source.fill_delivers w.block
    refine .discard ((ends_refill hs minimum maximum).mono ?_ ?_ ?_)
    · rintro _ w' ⟨-, ⟨-, rfl⟩ | ⟨hneeded, bytes, hbytes, hgains⟩⟩
      · exact ⟨⟨hs, rfl⟩, fun _ => rfl, rfl, [], .refl _, (List.append_nil _).symm⟩
      · rw [hbytes] at hfill
        exact ⟨⟨hgains.sound, hgains.block_eq⟩, fun h => absurd hneeded h, hgains.count_eq, bytes,
          hfill.1, hgains.lookahead_eq⟩
    · rintro _ w' ⟨hneeded, ⟨text, -, htext⟩, hgains, hlast, hcursor⟩
      rw [htext] at hfill
      exact ⟨hneeded, rfl, hgains, hfill, hlast, hcursor⟩
    · rintro (horder | hlong) ⟨hle, hblock⟩
      · exact absurd hle (Nat.not_le.2 horder)
      · exact absurd hblock (Nat.not_le.2 hlong)
  | consume count =>
    refine (ends_consume hs count).mono ?_ ?_ Nat.not_le.2
    · rintro _ w' ⟨hle, hsound, hsource, hblock, hcount, hlookahead⟩
      have hlen : (w.peek count).length = count := by
        rw [peek_eq, List.length_take_of_le (hs.length_lookahead ▸ hle)]
      refine ⟨⟨hsound, hblock⟩, fun _ => hsource, ?_, [], hsource ▸ .refl _, ?_⟩
      · rw [hcount, consumed, hlen]
      · rw [consumed, peek_eq, hlookahead, List.take_append_drop, List.append_nil]
    · rintro _ _ h
      exact h.elim

end Call

/-- A refill that finds too little returns as filling the second block behind the carried bytes
does. -/
theorem returns_refill {minimum maximum : Nat} {error? : Option StreamError}
    (hv : Call.Valid w (.refill minimum maximum)) (hneeded : w.available < maximum)
    (h : Returns fillBlock w.carry error? w') :
    Returns (Call.run (.refill minimum maximum)) w error? w' := by
  have hrefill : refill minimum maximum w =
      (do fillBlock; return minimum ≤ (← get).available : Action Bool) w.carry := by
    show (if maximum < minimum then _ else if w.block < maximum then _ else
      if w.available < maximum then _ else _ : Action Bool) w = _
    rw [if_neg (Nat.not_lt.2 hv.1), if_neg (Nat.not_lt.2 hv.2), if_pos hneeded]
    rfl
  cases error? with
  | none =>
    obtain ⟨_, h⟩ := h
    exact ⟨(), map_of_ok (hrefill.trans (bind_of_ok h))⟩
  | some e => exact map_of_error (hrefill.trans (bind_of_error h))

/-- A call that returned: the window before and after it, and the error, if it failed. -/
structure Returned where
  before : Window
  call : Call
  error? : Option StreamError
  after : Window

namespace Returned

def consumed (r : Returned) : List UInt8 := r.call.consumed r.before

/-- The bytes that the source delivered during the call. -/
def delivered (r : Returned) : List UInt8 :=
  r.before.source.pending.take (r.after.source.delivered - r.before.source.delivered)

/-- The delivered bytes that reach the window: all of them when the call succeeds, and none when it
fails. -/
def kept (r : Returned) : List UInt8 :=
  match r.error? with
  | none => r.delivered
  | some _ => []

/-- A call that failed left the window as it was, with nothing in its second block. -/
structure Intact (r : Returned) : Prop where
  lookahead_eq : r.after.lookahead = r.before.lookahead
  count_eq : r.after.count = r.before.count
  lastRead_eq : r.after.lastRead = 0
  cursor_eq : r.after.cursor = -r.after.available

/-- What a call does to the bytes, those of the source and those of the window. -/
structure Accounted (r : Returned) : Prop where
  delivers : r.before.source.Delivers r.delivered r.after.source
  source_eq : ¬ r.call.Reads r.before → r.after.source = r.before.source
  stream_eq : r.consumed ++ r.after.lookahead = r.before.lookahead ++ r.kept
  count_eq : r.after.count = r.before.count + r.consumed.length
  failed : r.error? ≠ none → r.Intact

theorem accounted {r : Returned} (hs : r.before.Sound)
    (hr : Returns r.call.run r.before r.error? r.after) :
    (r.after.Sound ∧ r.after.block = r.before.block) ∧ r.Accounted := by
  -- The bytes delivered are those that the states before and after it tell.
  rcases (Call.ends_run hs r.call).of_returns hr with
    ⟨he, -, hsound, hsource, hcount, bytes, hbytes, hstream⟩ |
    ⟨e, he, hreads, hconsumed, hgains, ⟨lost, hlost⟩, hlast, hcursor⟩
  · have hdelivered : r.delivered = bytes := hbytes.take_pending
    exact ⟨hsound, {
      delivers := hdelivered ▸ hbytes
      source_eq := hsource
      stream_eq := by rw [kept, he, hdelivered, consumed, hstream]
      count_eq := hcount
      failed := fun h => absurd he h }⟩
  · have hdelivered : r.delivered = lost := hlost.take_pending
    have hlookahead := hgains.lookahead_eq.trans (List.append_nil _)
    exact ⟨⟨hgains.sound, hgains.block_eq⟩, {
      delivers := hdelivered ▸ hlost
      source_eq := fun h => absurd hreads h
      stream_eq := by rw [kept, he, consumed, hconsumed, hgains.lookahead_eq, List.nil_append]
      count_eq := by rw [consumed, hconsumed, hgains.count_eq, List.length_nil, Nat.add_zero]
      failed := fun _ => ⟨hlookahead, hgains.count_eq, hlast, hcursor⟩ }⟩

end Returned

/-- The calls that returned, made in turn on a new window, lead to the state. -/
inductive Run (source : Source) (block : Nat) : List Returned → Window → Prop
  | start {w : Window} (h : openWith source block = .ok w) : Run source block [] w
  | call {returned : List Returned} {w w' : Window} (h : Run source block returned w) (call : Call)
      (error? : Option StreamError) (hv : call.Valid w) (hr : Returns call.run w error? w') :
      Run source block (returned ++ [⟨w, call, error?, w'⟩]) w'

/-- The books of a window after calls that returned: what was consumed, followed by the lookahead,
is what the calls kept, and with what is still to come the deliveries are all there was to come. -/
structure Accounts (source : Source) (returned : List Returned) (w : Window) : Prop where
  stream_eq : returned.flatMap Returned.consumed ++ w.lookahead =
    returned.flatMap Returned.kept
  count_eq : w.count = (returned.flatMap Returned.consumed).length
  pending_eq : source.pending = returned.flatMap Returned.delivered ++ w.source.pending

theorem Accounts.concat {returned : List Returned} {r : Returned}
    (h : Accounts source returned r.before) (hr : r.Accounted) :
    Accounts source (returned ++ [r]) r.after := by
  constructor <;> simp only [List.flatMap_append, List.flatMap_singleton]
  · rw [List.append_assoc, hr.stream_eq, ← List.append_assoc, h.stream_eq]
  · rw [hr.count_eq, h.count_eq, List.length_append]
  · rw [h.pending_eq, hr.delivers.pending_eq, List.append_assoc]

namespace Run

variable {returned : List Returned}

theorem sound (h : Run source block returned w) : w.Sound ∧ w.block = block := by
  induction h with
  | start h =>
    obtain ⟨-, rfl⟩ := eq_of_openWith h
    exact ⟨sound_ofBlock source block, rfl⟩
  | @call returned w w' h call error? hv hr ih =>
    obtain ⟨⟨hsound, hblock⟩, -⟩ := Returned.accounted (r := ⟨w, call, error?, w'⟩) ih.1 hr
    exact ⟨hsound, hblock.trans ih.2⟩

end Run
end Window
end BitTransducer
