import Mathlib.Data.List.Basic
import BitTransducer.Source

/-! # What a source delivers

Reads take the pending bytes of a source from the front: whatever else happens between them, the
bytes that they bring and those still pending are the bytes that were pending before
(`Delivers.pending_eq`). A `Steady` source brings a byte at least in each read, but for
interruptions, as long as there are any.

Main statements: `fill_delivers` (filling delivers what it returns, and loses what was delivered
when it fails), `Steady.fill_eq` (filling from a steady source brings all there is room for),
`failures_fill` (filling fails exactly when it comes to one of the failures that were to arrive). -/

namespace BitTransducer

def Reading.payload : Reading → List UInt8
  | .bytes data => data
  | _ => []

def Reading.isFailure : Reading → Bool
  | .failure _ => true
  | _ => false

def Arrival.isFailure : Arrival → Bool
  | .failure _ => true
  | _ => false

namespace Source

variable {s t u : Source} {room : Nat} {reading : Reading} {bytes : List UInt8}

/-- Reads of `s`, one after the other, brought the `bytes` and left `t`. -/
inductive Delivers : Source → List UInt8 → Source → Prop
  | refl (s : Source) : Delivers s [] s
  | read {s t u : Source} {room : Nat} {reading : Reading} {bytes : List UInt8}
      (h : s.read room = (reading, t)) (next : Delivers t bytes u) :
      Delivers s (reading.payload ++ bytes) u

/-- Nothing fails, and after a pause there is no data. -/
def SteadyArrivals : List Arrival → Prop
  | [] => True
  | .data _ :: rest => SteadyArrivals rest
  | .interrupted :: rest => SteadyArrivals rest
  | .pause :: rest => rest.flatMap Arrival.bytes = [] ∧ SteadyArrivals rest
  | .failure _ :: _ => False

instance : DecidablePred SteadyArrivals := go
where
  go : (arrivals : List Arrival) → Decidable (SteadyArrivals arrivals)
    | [] => inferInstanceAs (Decidable True)
    | .data _ :: rest => go rest
    | .interrupted :: rest => go rest
    | .pause :: rest =>
      have := go rest
      inferInstanceAs (Decidable (_ ∧ _))
    | .failure _ :: _ => inferInstanceAs (Decidable False)

/-- All that is pending comes in reads of a byte at least, with only interruptions between them, and
no read fails. -/
def Steady (s : Source) : Prop := SteadyArrivals s.arrivals ∧ s.chunk ≠ some 0

instance (s : Source) : Decidable s.Steady := inferInstanceAs (Decidable (_ ∧ _))

/-! ## One read -/

private theorem bytes_eq_nil_of_next? {arrivals : List Arrival} (h : next? arrivals = none) :
    arrivals.flatMap Arrival.bytes = [] := by
  fun_induction next? arrivals with
  | case1 => rfl
  | case2 arrivals ih => exact ih h
  | case3 => cases h

private theorem bytes_eq_of_next? {arrivals rest : List Arrival} {a : Arrival}
    (h : next? arrivals = some (a, rest)) :
    arrivals.flatMap Arrival.bytes = a.bytes ++ rest.flatMap Arrival.bytes ∧
      a ≠ .data [] ∧ a :: rest <:+ arrivals := by
  fun_induction next? arrivals with
  | case1 => cases h
  | case2 arrivals ih =>
    obtain ⟨hbytes, hne, hsuffix⟩ := ih h
    exact ⟨hbytes, hne, hsuffix.trans (List.suffix_cons ..)⟩
  | case3 a' arrivals hne =>
    cases h
    exact ⟨rfl, fun h => hne h, List.suffix_refl _⟩

/-- What a read may find: the end, data, or an arrival that brings nothing. -/
private theorem read_cases (h : s.read room = (reading, t)) :
    t.chunk = s.chunk ∧
      ((reading = .bytes [] ∧ s.pending = [] ∧ t.arrivals = []) ∨
        (∃ bytes rest, bytes ≠ [] ∧ .data bytes :: rest <:+ s.arrivals ∧
          s.pending = bytes ++ rest.flatMap Arrival.bytes ∧
          reading = .bytes (bytes.take (s.limit room)) ∧
          t.arrivals = .data (bytes.drop (s.limit room)) :: rest) ∨
        ∃ a, a :: t.arrivals <:+ s.arrivals ∧ s.pending = t.pending ∧
          ((a = .interrupted ∧ reading = .interrupted) ∨ (a = .pause ∧ reading = .bytes []) ∨
            ∃ text, a = .failure text ∧ reading = .failure text)) := by
  have hr : (take s.arrivals (s.limit room)).1 = reading := congrArg Prod.fst h
  have ht : (take s.arrivals (s.limit room)).2 = t.arrivals :=
    congrArg (fun result => result.2.arrivals) h
  have hc : s.chunk = t.chunk := congrArg (fun result => result.2.chunk) h
  refine ⟨hc.symm, ?_⟩
  cases hn : next? s.arrivals with
  | none =>
    rw [take, hn] at hr ht
    exact .inl ⟨hr.symm, bytes_eq_nil_of_next? hn, ht.symm⟩
  | some next =>
    obtain ⟨a, rest⟩ := next
    obtain ⟨hbytes, hne, hsuffix⟩ := bytes_eq_of_next? hn
    rw [take, hn] at hr ht
    cases a with
    | data bytes =>
      exact .inr (.inl ⟨bytes, rest, fun h => hne (h ▸ rfl), hsuffix, hbytes, hr.symm, ht.symm⟩)
    | interrupted =>
      obtain rfl : rest = t.arrivals := ht
      exact .inr (.inr ⟨_, hsuffix, hbytes, .inl ⟨rfl, hr.symm⟩⟩)
    | pause =>
      obtain rfl : rest = t.arrivals := ht
      exact .inr (.inr ⟨_, hsuffix, hbytes, .inr (.inl ⟨rfl, hr.symm⟩)⟩)
    | failure text =>
      obtain rfl : rest = t.arrivals := ht
      exact .inr (.inr ⟨_, hsuffix, hbytes, .inr (.inr ⟨text, rfl, hr.symm⟩)⟩)

theorem pending_read (h : s.read room = (reading, t)) :
    s.pending = reading.payload ++ t.pending := by
  obtain ⟨-, ⟨rfl, hp, ht⟩ | ⟨bytes, rest, -, -, hp, rfl, ht⟩ | ⟨a, -, hp, hr⟩⟩ := read_cases h
  · rw [hp, pending, ht]
    rfl
  · rw [hp, pending, ht, List.flatMap_cons, ← List.append_assoc]
    exact congrArg (· ++ _) (List.take_append_drop ..).symm
  · rw [hp]
    rcases hr with ⟨-, rfl⟩ | ⟨-, rfl⟩ | ⟨_, -, rfl⟩ <;> rfl

theorem Delivers.pending_eq (h : s.Delivers bytes t) : s.pending = bytes ++ t.pending := by
  induction h with
  | refl => rfl
  | read h _ ih => rw [pending_read h, ih, List.append_assoc]

theorem delivered_read (h : s.read room = (reading, t)) :
    t.delivered = s.delivered + reading.payload.length := by
  have hr : (take s.arrivals (s.limit room)).1 = reading := congrArg Prod.fst h
  have ht : (match (take s.arrivals (s.limit room)).1 with
      | .bytes bytes => s.delivered + bytes.length
      | _ => s.delivered) = t.delivered :=
    congrArg (fun result => result.2.delivered) h
  rw [← ht, hr]
  cases reading with
  | bytes bytes => rfl
  | interrupted | failure _ => rfl

theorem Delivers.delivered_eq (h : s.Delivers bytes t) :
    t.delivered = s.delivered + bytes.length := by
  induction h with
  | refl => rfl
  | read h _ ih => rw [ih, delivered_read h, List.length_append, Nat.add_assoc]

/-- What was delivered between two states can be told from them. -/
theorem Delivers.take_pending (h : s.Delivers bytes t) :
    s.pending.take (t.delivered - s.delivered) = bytes := by
  rw [h.delivered_eq, Nat.add_sub_cancel_left, h.pending_eq, List.take_left]

theorem SteadyArrivals.of_suffix {rest arrivals : List Arrival} (h : SteadyArrivals arrivals)
    (hsuffix : rest <:+ arrivals) : SteadyArrivals rest := by
  induction arrivals with
  | nil => rwa [List.suffix_nil.1 hsuffix]
  | cons a arrivals ih =>
    rcases List.suffix_cons_iff.1 hsuffix with rfl | htail
    · exact h
    · cases a with
      | data _ => exact ih h htail
      | interrupted => exact ih h htail
      | pause => exact ih h.2 htail
      | failure _ => exact h.elim

/-- A read leaves a steady source steady and does not fail; it brings nothing into some room only
when nothing is pending. -/
theorem Steady.read (hs : s.Steady) (h : s.read room = (reading, t)) :
    t.Steady ∧ (∀ text, reading ≠ .failure text) ∧
      (room ≠ 0 → reading = .bytes [] → s.pending = []) := by
  obtain ⟨harrivals, hchunk⟩ := hs
  obtain ⟨hc, ⟨rfl, hp, ht⟩ | ⟨bytes, rest, hne, hsuffix, -, rfl, ht⟩ | ⟨a, hsuffix, hp, hr⟩⟩ :=
    read_cases h
  · exact ⟨⟨by rw [ht]; exact trivial, hc ▸ hchunk⟩, nofun, fun _ _ => hp⟩
  · have hrest : SteadyArrivals (.data bytes :: rest) := harrivals.of_suffix hsuffix
    refine ⟨⟨by rw [ht]; exact hrest, hc ▸ hchunk⟩, nofun, fun hroom hr => ?_⟩
    have hlimit : s.limit room ≠ 0 := by
      unfold limit
      split
      · exact hroom
      · rename_i chunk hsome
        have : chunk ≠ 0 := fun h0 => hchunk (h0 ▸ hsome)
        omega
    rcases List.take_eq_nil_iff.1 (Reading.bytes.inj hr) with h0 | h0
    · exact absurd h0 hlimit
    · exact absurd h0 hne
  · have hnext := harrivals.of_suffix hsuffix
    rcases hr with ⟨rfl, rfl⟩ | ⟨rfl, rfl⟩ | ⟨_, rfl, rfl⟩
    · exact ⟨⟨hnext, hc ▸ hchunk⟩, nofun, nofun⟩
    · exact ⟨⟨hnext.2, hc ▸ hchunk⟩, nofun, fun _ _ => hp.trans hnext.1⟩
    · exact hnext.elim

/-! ## Filling -/

/-- Filling delivers what it returns; when it fails, the bytes that were delivered are lost. -/
theorem fill_delivers (room : Nat) (s : Source) :
    match fill room s with
    | .ok bytes t => s.Delivers bytes t ∧ bytes.length ≤ room
    | .error _ t => ∃ lost, s.Delivers lost t := by
  fun_induction fill room s with
  | case1 s => exact ⟨.refl s, Nat.zero_le _⟩
  | case2 room s h0 t h => exact ⟨.read h (.refl t), Nat.zero_le _⟩
  | case3 room s h0 byte bytes t h more u hmore ih =>
    have hroom := length_le_of_read h
    rw [hmore] at ih
    refine ⟨.read h ih.1, ?_⟩
    have := ih.2
    rw [List.length_append]
    rw [List.length_cons] at hroom ⊢
    omega
  | case4 room s h0 byte bytes t h text u hmore ih =>
    rw [hmore] at ih
    obtain ⟨lost, hlost⟩ := ih
    exact ⟨_, .read h hlost⟩
  | case5 room s h0 t h ih =>
    cases hfill : fill room t with
    | ok bytes u =>
      rw [hfill] at ih
      exact ⟨.read h ih.1, ih.2⟩
    | error text u =>
      rw [hfill] at ih
      obtain ⟨lost, hlost⟩ := ih
      exact ⟨lost, .read h hlost⟩
  | case6 room s h0 text t h => exact ⟨_, .read h (.refl t)⟩

/-- Filling from a steady source brings the pending bytes that there is room for. -/
theorem Steady.fill_eq (hs : s.Steady) (room : Nat) :
    ∃ t, fill room s = .ok (s.pending.take room) t ∧ t.Steady ∧
      t.pending = s.pending.drop room := by
  fun_induction fill room s with
  | case1 s => exact ⟨s, rfl, hs, rfl⟩
  | case2 room s h0 t h =>
    obtain ⟨ht, -, hnil⟩ := hs.read h
    have hp := pending_read h
    rw [hnil h0 rfl] at hp ⊢
    exact ⟨t, by rw [List.take_nil], ht, by rw [List.drop_nil]; exact hp.symm⟩
  | case3 room s h0 byte bytes t h more u hmore ih =>
    have hroom := length_le_of_read h
    obtain ⟨u', hfill, hu, hdrop⟩ := ih (hs.read h).1
    rw [hmore] at hfill
    obtain ⟨rfl, rfl⟩ := EStateM.Result.ok.inj hfill
    rw [pending_read h, Reading.payload]
    refine ⟨u, ?_, hu, ?_⟩
    · rw [List.take_append, List.take_of_length_le hroom, List.length_cons]
    · rw [hdrop, List.drop_append, List.drop_of_length_le hroom, List.length_cons,
        List.nil_append]
  | case4 room s h0 byte bytes t h text u hmore ih =>
    obtain ⟨_, hfill, -⟩ := ih (hs.read h).1
    rw [hmore] at hfill
    cases hfill
  | case5 room s h0 t h ih =>
    rw [pending_read h]
    exact ih (hs.read h).1
  | case6 room s h0 text t h => exact absurd rfl ((hs.read h).2.1 text)

/-! ## Failures -/

/-- The number of failures that are still to arrive. -/
def failures (s : Source) : Nat := s.arrivals.countP Arrival.isFailure

private theorem failures_of_next? {arrivals : List Arrival} :
    arrivals.countP Arrival.isFailure =
      ((next? arrivals).elim [] fun next => next.1 :: next.2).countP Arrival.isFailure := by
  fun_induction next? arrivals with
  | case1 => rfl
  | case2 arrivals ih =>
    rw [List.countP_cons_of_neg (by decide)]
    exact ih
  | case3 => rfl

theorem failures_read (h : s.read room = (reading, t)) :
    s.failures = t.failures + if reading.isFailure then 1 else 0 := by
  have hr : (take s.arrivals (s.limit room)).1 = reading := congrArg Prod.fst h
  have ht : (take s.arrivals (s.limit room)).2 = t.arrivals :=
    congrArg (fun result => result.2.arrivals) h
  rw [failures, failures, failures_of_next?]
  cases hn : next? s.arrivals with
  | none =>
    rw [take, hn] at hr ht
    rw [← hr, ← ht]
    rfl
  | some next =>
    obtain ⟨a, rest⟩ := next
    rw [take, hn] at hr ht
    cases a <;> rw [← hr, ← ht] <;> exact List.countP_cons ..

/-- Filling that succeeds meets no failure, and filling that fails uses up one. -/
theorem failures_fill (room : Nat) (s : Source) :
    match fill room s with
    | .ok _ t => t.failures = s.failures
    | .error _ t => t.failures < s.failures := by
  fun_induction fill room s with
  | case1 s => rfl
  | case2 room s h0 t h => exact (failures_read h).symm
  | case3 room s h0 byte bytes t h more u hmore ih =>
    rw [hmore] at ih
    exact ih.trans (failures_read h).symm
  | case4 room s h0 byte bytes t h text u hmore ih =>
    rw [hmore] at ih
    exact Nat.lt_of_lt_of_eq ih (failures_read h).symm
  | case5 room s h0 t h ih =>
    rw [show s.failures = t.failures from failures_read h]
    exact ih
  | case6 room s h0 text t h => exact Nat.lt_of_succ_le (Nat.le_of_eq (failures_read h).symm)

end Source
end BitTransducer
