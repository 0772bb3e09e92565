import BitTransducer.Failure

/-! # How a step may end

A step ends with a result, with an error, or with a violation. `Ends` is what can be said of all
three at once, and `Ends.bind` says it of steps in sequence; one such statement for each step is
what proofs about sequences of steps are built from. `Returns` leaves out the violations.

Two runs of a step are compared by a relation between their states: a step keeps them in `Lockstep`
if related states lead to the same result, or to the same violation, and to related states again. -/

namespace BitTransducer

variable {ε σ α β : Type}

/-- What holds at the end of a step: `ok` of a result and the state it comes with, `failed` of an
error and the state that is left, and `broken` if the step breaks its contract. -/
def Ends (ending : EStateM.Result (Failure ε) σ α) (ok : α → σ → Prop) (failed : ε → σ → Prop)
    (broken : Prop) : Prop :=
  match ending with
  | .ok a s => ok a s
  | .error (.error e) s => failed e s
  | .error (.violation _) _ => broken

/-- From `s` the step returns, with a result or with the error that `error?` is, and leaves `s'`. -/
def Returns (x : EStateM (Failure ε) σ α) (s : σ) (error? : Option ε) (s' : σ) : Prop :=
  match error? with
  | none => ∃ a, x s = .ok a s'
  | some e => x s = .error (.error e) s'

theorem Returns.eq_of_ok {x : EStateM (Failure ε) σ α} {s s' s₁ : σ} {error? : Option ε} {a : α}
    (hr : Returns x s error? s') (h : x s = .ok a s₁) : s' = s₁ := by
  cases error? with
  | none =>
    obtain ⟨b, hb⟩ := hr
    exact (EStateM.Result.ok.inj (hb.symm.trans h)).2
  | some e => cases h.symm.trans hr

theorem Returns.of_eq {x y : EStateM (Failure ε) σ α} {s t s' : σ} {error? : Option ε}
    (hr : Returns y t error? s') (h : x s = y t) : Returns x s error? s' := by
  cases error? with
  | none => exact hr.imp fun _ hr => h.trans hr
  | some e => exact h.trans hr

theorem Returns.unique {x : EStateM (Failure ε) σ α} {s s₁ s₂ : σ} {error₁ error₂ : Option ε}
    (h₁ : Returns x s error₁ s₁) (h₂ : Returns x s error₂ s₂) : error₁ = error₂ ∧ s₁ = s₂ := by
  cases error₂ with
  | none =>
    obtain ⟨a, ha⟩ := h₂
    refine ⟨?_, h₁.eq_of_ok ha⟩
    cases error₁ with
    | none => rfl
    | some e => cases ha.symm.trans h₁
  | some e =>
    cases error₁ with
    | none =>
      obtain ⟨a, ha⟩ := h₁
      cases ha.symm.trans h₂
    | some e' =>
      cases Eq.symm h₁ |>.trans h₂
      exact ⟨rfl, rfl⟩

/-- The state that a step leaves, however it ends. -/
def leftBy : EStateM.Result ε σ α → σ
  | .ok _ s => s
  | .error _ s => s

theorem leftBy_of_returns {x : EStateM (Failure ε) σ α} {s s' : σ} {error? : Option ε}
    (h : Returns x s error? s') : leftBy (x s) = s' := by
  cases error? with
  | none =>
    obtain ⟨a, h⟩ := h
    rw [h, leftBy]
  | some e => rw [show x s = _ from h, leftBy]

/-- The result of a step, if it has one. -/
def result? : EStateM.Result ε σ α → Option α
  | .ok a _ => some a
  | .error _ _ => none

theorem exists_ok_of_result? {ending : EStateM.Result ε σ α} {a : α}
    (h : result? ending = some a) : ∃ s, ending = .ok a s := by
  cases ending with
  | ok b s =>
    obtain rfl := Option.some.inj h
    exact ⟨s, rfl⟩
  | error e s => cases h

/-- What is there; a violation where nothing is. -/
def orBreak : Option α → EStateM (Failure ε) σ α
  | some a => return a
  | none => throw (.violation .outOfBounds)

/-- What follows a step that returned goes on from the state it left. -/
theorem bind_of_ok {x : EStateM ε σ α} {f : α → EStateM ε σ β} {s s' : σ} {a : α}
    (h : x s = .ok a s') : (x >>= f) s = f a s' := by
  show EStateM.bind x f s = _
  rw [EStateM.bind, h]

theorem bind_of_error {x : EStateM ε σ α} {f : α → EStateM ε σ β} {s s' : σ} {e : ε}
    (h : x s = .error e s') : (x >>= f) s = .error e s' := by
  show EStateM.bind x f s = _
  rw [EStateM.bind, h]

theorem orBreak_bind {x? : Option α} {f : α → EStateM (Failure ε) σ β} {s : σ} {a : α}
    (h : x? = some a) : (orBreak x? >>= f) s = f a s := by
  rw [h]
  rfl

/-- Steps in sequence return if the first one does and what follows it. -/
theorem exists_of_bind_ok {x : EStateM ε σ α} {f : α → EStateM ε σ β} {s s' : σ} {b : β}
    (h : (x >>= f) s = .ok b s') : ∃ a s₁, x s = .ok a s₁ ∧ f a s₁ = .ok b s' := by
  replace h : EStateM.bind x f s = .ok b s' := h
  unfold EStateM.bind at h
  cases hx : x s with
  | ok a s₁ =>
    rw [hx] at h
    exact ⟨a, s₁, rfl, h⟩
  | error e s₁ =>
    rw [hx] at h
    cases h

theorem map_of_ok {x : EStateM ε σ α} {f : α → β} {s s' : σ} {a : α} (h : x s = .ok a s') :
    (f <$> x) s = .ok (f a) s' := by
  show EStateM.map f x s = _
  rw [EStateM.map, h]

theorem map_of_error {x : EStateM ε σ α} {f : α → β} {s s' : σ} {e : ε}
    (h : x s = .error e s') : (f <$> x) s = .error e s' := by
  show EStateM.map f x s = _
  rw [EStateM.map, h]

theorem discard_of_ok {x : EStateM ε σ α} {s s' : σ} {a : α} (h : x s = .ok a s') :
    (discard x : EStateM ε σ Unit) s = .ok () s' := map_of_ok h

theorem discard_of_error {x : EStateM ε σ α} {s s' : σ} {e : ε} (h : x s = .error e s') :
    (discard x : EStateM ε σ Unit) s = .error e s' := map_of_error h

theorem bind_congr_left {x y : EStateM ε σ α} {f : α → EStateM ε σ β} {s : σ} (h : x s = y s) :
    (x >>= f) s = (y >>= f) s := by
  show EStateM.bind x f s = EStateM.bind y f s
  rw [EStateM.bind, EStateM.bind, h]

theorem discard_congr {x y : EStateM ε σ α} {s : σ} (h : x s = y s) :
    (discard x : EStateM ε σ Unit) s = (discard y : EStateM ε σ Unit) s := by
  show EStateM.map _ x s = EStateM.map _ y s
  rw [EStateM.map, EStateM.map, h]

namespace Ends

variable {ok ok' : α → σ → Prop} {failed failed' : ε → σ → Prop} {broken broken' : Prop}

theorem mono {ending : EStateM.Result (Failure ε) σ α} (h : Ends ending ok failed broken)
    (hok : ∀ a s, ok a s → ok' a s) (hfailed : ∀ e s, failed e s → failed' e s)
    (hbroken : broken → broken') : Ends ending ok' failed' broken' := by
  match ending, h with
  | .ok a s, h => exact hok a s h
  | .error (.error e) s, h => exact hfailed e s h
  | .error (.violation _) _, h => exact hbroken h

/-- What is known of an ending in two ways. -/
theorem both {ending : EStateM.Result (Failure ε) σ α} (h : Ends ending ok failed broken)
    (h' : Ends ending ok' failed' broken') :
    Ends ending (fun a s => ok a s ∧ ok' a s) (fun e s => failed e s ∧ failed' e s)
      (broken ∧ broken') := by
  match ending, h, h' with
  | .ok a s, h, h' => exact ⟨h, h'⟩
  | .error (.error e) s, h, h' => exact ⟨h, h'⟩
  | .error (.violation _) _, h, h' => exact ⟨h, h'⟩

theorem bind {x : EStateM (Failure ε) σ α} {f : α → EStateM (Failure ε) σ β} {s : σ}
    {ok : β → σ → Prop}
    (h : Ends (x s) (fun a s => Ends (f a s) ok failed broken) failed broken) :
    Ends ((x >>= f) s) ok failed broken := by
  show Ends (EStateM.bind x f s) ok failed broken
  unfold EStateM.bind
  match x s, h with
  | .ok a s, h => exact h
  | .error (.error e) s, h => exact h
  | .error (.violation _) _, h => exact h

theorem ite_bind {p : Prop} [Decidable p] {x : EStateM (Failure ε) σ Unit}
    {f : Unit → EStateM (Failure ε) σ β} {s : σ} {ok : β → σ → Prop}
    (h : Ends ((if p then x else pure ()) s) (fun a s => Ends (f a s) ok failed broken) failed
      broken) :
    Ends ((if p then x >>= f else f ()) s) ok failed broken := by
  split
  · rw [if_pos ‹_›] at h
    exact .bind h
  · rw [if_neg ‹_›] at h
    exact h

theorem get_bind {f : σ → EStateM (Failure ε) σ β} {s : σ} {ok : β → σ → Prop}
    (h : Ends (f s s) ok failed broken) :
    Ends (((get : EStateM (Failure ε) σ σ) >>= f) s) ok failed broken := h

theorem discard {x : EStateM (Failure ε) σ α} {s : σ} {ok : σ → Prop}
    (h : Ends (x s) (fun _ s => ok s) failed broken) :
    Ends ((discard x : EStateM (Failure ε) σ Unit) s) (fun _ s => ok s) failed broken := by
  show Ends (EStateM.map _ x s) (fun _ => ok) failed broken
  unfold EStateM.map
  match x s, h with
  | .ok a s, h => exact h
  | .error (.error e) s, h => exact h
  | .error (.violation _) _, h => exact h

theorem exists_ok {ending : EStateM.Result (Failure ε) σ α}
    (h : Ends ending ok (fun _ _ => False) False) : ∃ a s, ending = .ok a s ∧ ok a s := by
  match ending, h with
  | .ok a s, h => exact ⟨a, s, rfl, h⟩

/-- A step that neither fails nor breaks its contract has a result. -/
theorem exists_ok_of_not {ending : EStateM.Result (Failure ε) σ α}
    (h : Ends ending ok failed broken) (hf : ∀ e s, ¬ failed e s) (hb : ¬ broken) :
    ∃ a s, ending = .ok a s ∧ ok a s :=
  (h.mono (fun _ _ h => h) hf hb).exists_ok

/-- A step that neither has a result nor fails breaks its contract. -/
theorem exists_violation {ending : EStateM.Result (Failure ε) σ α}
    (h : Ends ending ok failed broken) (hok : ∀ a s, ¬ ok a s) (hf : ∀ e s, ¬ failed e s) :
    ∃ cause s, ending = .error (.violation cause) s := by
  match ending, h with
  | .ok a s, h => exact absurd h (hok a s)
  | .error (.error e) s, h => exact absurd h (hf e s)
  | .error (.violation cause) s, _ => exact ⟨cause, s, rfl⟩

/-- A step that does not break its contract returns. -/
theorem exists_returns {x : EStateM (Failure ε) σ α} {s : σ} (h : Ends (x s) ok failed broken)
    (hb : ¬ broken) : ∃ error? s', Returns x s error? s' := by
  cases hx : x s with
  | ok a s' => exact ⟨none, s', a, hx⟩
  | error failure s' =>
    rw [hx] at h
    cases failure with
    | error e => exact ⟨some e, s', hx⟩
    | violation _ => exact absurd h hb

theorem of_returns {x : EStateM (Failure ε) σ α} {s s' : σ} {error? : Option ε}
    (h : Ends (x s) ok failed broken) (hr : Returns x s error? s') :
    (error? = none ∧ ∃ a, ok a s') ∨ ∃ e, error? = some e ∧ failed e s' := by
  cases error? with
  | none =>
    obtain ⟨a, ha⟩ := hr
    rw [ha] at h
    exact .inl ⟨rfl, a, h⟩
  | some e =>
    rw [show x s = _ from hr] at h
    exact .inr ⟨e, rfl, h⟩

theorem ok_of_returns {x : EStateM (Failure ε) σ α} {s s' : σ} {error? : Option ε}
    (h : Ends (x s) ok (fun _ _ => False) broken) (hr : Returns x s error? s') :
    error? = none ∧ ∃ a, ok a s' :=
  (h.of_returns hr).resolve_right fun ⟨_, _, h⟩ => h

end Ends

/-! ## Two runs -/

/-- Both runs of a step have the same result or break the same contract, and leave related states.
Neither fails. -/
inductive EndAlike (R : σ → σ → Prop) :
    EStateM.Result (Failure ε) σ α → EStateM.Result (Failure ε) σ α → Prop
  | ok {s t : σ} (a : α) (h : R s t) : EndAlike R (.ok a s) (.ok a t)
  | violation {s t : σ} (cause : Violation) (h : R s t) :
      EndAlike R (.error (.violation cause) s) (.error (.violation cause) t)

/-- From related states on, both runs of the step end alike. -/
def Lockstep (R : σ → σ → Prop) (x : EStateM (Failure ε) σ α) : Prop :=
  ∀ s t, R s t → EndAlike R (x s) (x t)

variable {R R' : σ → σ → Prop}

theorem EndAlike.mono {ending ending' : EStateM.Result (Failure ε) σ α}
    (h : EndAlike R ending ending') (hR : ∀ s t, R s t → R' s t) : EndAlike R' ending ending' := by
  cases h with
  | ok a h => exact .ok a (hR _ _ h)
  | violation cause h => exact .violation cause (hR _ _ h)

/-- The result of one run is that of the other. -/
theorem EndAlike.exists_ok {ending ending' : EStateM.Result (Failure ε) σ α} {a : α} {s : σ}
    (h : EndAlike R ending ending') (hok : ending = .ok a s) :
    ∃ t, ending' = .ok a t ∧ R s t := by
  cases h with
  | ok b h =>
    cases hok
    exact ⟨_, rfl, h⟩
  | violation cause h => cases hok

namespace Lockstep

theorem pure (a : α) : Lockstep R (Pure.pure a : EStateM (Failure ε) σ α) :=
  fun _ _ h => .ok a h

theorem violate (cause : Violation) :
    Lockstep R (throw (.violation cause) : EStateM (Failure ε) σ α) :=
  fun _ _ h => .violation cause h

theorem bind {x : EStateM (Failure ε) σ α} {f : α → EStateM (Failure ε) σ β} (hx : Lockstep R x)
    (hf : ∀ a, Lockstep R (f a)) : Lockstep R (x >>= f) := by
  intro s t h
  have hstep := hx s t h
  show EndAlike R (EStateM.bind x f s) (EStateM.bind x f t)
  unfold EStateM.bind
  generalize x s = ending at hstep ⊢
  generalize x t = ending' at hstep ⊢
  cases hstep with
  | ok a h => exact hf a _ _ h
  | violation cause h => exact .violation cause h

/-- What a step does may depend on what related states have in common. -/
theorem get_bind {f : σ → EStateM (Failure ε) σ β}
    (hf : ∀ s t, R s t → f s = f t ∧ Lockstep R (f t)) :
    Lockstep R ((get : EStateM (Failure ε) σ σ) >>= f) := by
  intro s t h
  obtain ⟨heq, hstep⟩ := hf s t h
  show EndAlike R (f s s) (f t t)
  rw [heq]
  exact hstep s t h

theorem ite {p : Prop} [Decidable p] {x y : EStateM (Failure ε) σ α} (hx : Lockstep R x)
    (hy : Lockstep R y) : Lockstep R (if p then x else y) := by
  split
  · exact hx
  · exact hy

theorem ite_bind {p : Prop} [Decidable p] {x : EStateM (Failure ε) σ Unit}
    {f : Unit → EStateM (Failure ε) σ β} (hx : Lockstep R x) (hf : Lockstep R (f ())) :
    Lockstep R (if p then x >>= f else f ()) := .ite (hx.bind fun _ => hf) hf

end Lockstep
end BitTransducer
