import BitTransducer.Proofs.BitBuffer.Accumulation

/-! # The loops that decide how far a buffer grows

The shift by which a buffer grows is found by trying one after the other: first by the threshold,
and from where that search ends by the margin. `SearchEnds` is such a search without a limit on its
tries. Both searches end, and where they end does not depend on the threshold at all: it asks for
less than the margin at every shift, though it is on another scale. An append of many words then
grows once, by just this shift, or not at all.

Main statements: `searchEnds_iff`, `searchesEndAt_iff` and `growthShift_least_sufficient`. -/

namespace BitTransducer

variable {W : Width} {ε : Type}

namespace BitBuffer

variable {b : BitBuffer W} {fits : Nat → Bool} {shift found total : Nat}

/-- To try `shift` and the numbers after it in turn, until one fits, ends at `found`. -/
inductive SearchEnds (fits : Nat → Bool) : (shift found : Nat) → Prop
  | here {shift : Nat} (h : fits shift = true) : SearchEnds fits shift shift
  | onward {shift found : Nat} (h : fits shift = false) (next : SearchEnds fits (shift + 1) found) :
      SearchEnds fits shift found

/-- The two searches for a shift end at `shift`: one by the threshold, which starts at 1 unless
there is no need to grow by it, and one by the margin, which starts where the first one ends. -/
def SearchesEndAt (b : BitBuffer W) (total shift : Nat) : Prop :=
  ∃ first, (if b.belowThreshold total 0 = true then first = 0
      else SearchEnds (b.belowThreshold total) 1 first) ∧
    SearchEnds (b.keepsMargin total) first shift

namespace SearchEnds

theorem isLeast (h : SearchEnds fits shift found) :
    IsLeast {s | shift ≤ s ∧ fits s = true} found := by
  induction h with
  | here h => exact ⟨⟨Nat.le_refl _, h⟩, fun s hs => hs.1⟩
  | @onward shift found h next ih =>
    obtain ⟨⟨hle, hfits⟩, hleast⟩ := ih
    refine ⟨⟨Nat.le_of_succ_le hle, hfits⟩, ?_⟩
    rintro s ⟨hs, hfits'⟩
    have hne : shift ≠ s := by
      rintro rfl
      simp [h] at hfits'
    exact hleast ⟨Nat.lt_of_le_of_ne hs hne, hfits'⟩

theorem of_isLeast (h : IsLeast {s | shift ≤ s ∧ fits s = true} found) :
    SearchEnds fits shift found := by
  obtain ⟨⟨hle, hfits⟩, hleast⟩ := h
  -- the tries that are still to come bring the search nearer to what it finds
  induction hn : found - shift generalizing shift with
  | zero =>
    obtain rfl : shift = found := by omega
    exact .here hfits
  | succ n ih =>
    cases hs : fits shift with
    | true =>
      have := hleast ⟨Nat.le_refl shift, hs⟩
      omega
    | false =>
      have hnext : shift + 1 ≤ found := by omega
      exact .onward hs (ih (fun s hs => hleast ⟨Nat.le_of_succ_le hs.1, hs.2⟩) hnext (by omega))

end SearchEnds

/-- A search ends at the first number that fits, and nowhere if there is none. -/
theorem searchEnds_iff :
    SearchEnds fits shift found ↔ IsLeast {s | shift ≤ s ∧ fits s = true} found :=
  ⟨SearchEnds.isLeast, SearchEnds.of_isLeast⟩

theorem searchEnds_zero_iff : SearchEnds fits 0 found ↔
    if fits 0 = true then found = 0 else SearchEnds fits 1 found := by
  constructor
  · rintro (h | ⟨h, next⟩)
    · simp [h]
    · simpa [h] using next
  · intro h
    split at h
    · subst h
      exact .here ‹_›
    · exact .onward (Bool.eq_false_iff.2 ‹_›) h

/-- Both searches end, and only at the shift by which the buffer grows. -/
theorem searchesEndAt_iff (hsize : 2 ≤ b.storage.size) :
    b.SearchesEndAt total shift ↔ shift = b.growthShift total := by
  have hself := keepsMargin_self hsize total
  have hbelow := belowThreshold_of_keepsMargin hself
  have hfirst := isLeast_firstFit hbelow (Nat.zero_le _) (show total < 0 + (total + 1) by omega)
  have hle := hfirst.2 ⟨Nat.zero_le _, hbelow⟩
  have hsecond := isLeast_firstFit hself hle (show total < _ + (total + 1) by omega)
  constructor
  · rintro ⟨first, hthreshold, hmargin⟩
    obtain rfl := (searchEnds_zero_iff.2 hthreshold).isLeast.unique hfirst
    exact hmargin.isLeast.unique hsecond
  · rintro rfl
    exact ⟨_, searchEnds_zero_iff.1 (.of_isLeast hfirst), .of_isLeast hsecond⟩

end BitBuffer

namespace Tracked

variable {t : Tracked W}

theorem size_lt_size_enlarge {b : BitBuffer W} (hsize : 2 ≤ b.storage.size) {shift : Nat}
    (h : shift ≠ 0) : b.size < (b.enlarge shift).size := by
  have hpow : 1 < 2 ^ shift := Nat.one_lt_two_pow h
  apply Nat.mul_lt_mul_of_pos_right _ W.bytes_pos
  rw [BitBuffer.size_storage_enlarge, Nat.shiftLeft_eq]
  exact (Nat.lt_mul_iff_one_lt_right (by omega)).2 hpow

/-- An append of many words grows by the shift that was searched for, unless it is 0, and then only
writes. -/
theorem appendWords_eq (hsize : 2 ≤ t.buffer.storage.size) (words : List (Word W)) (count : Nat) :
    (appendWords words count : Action ε W Unit) t =
      (let shift := t.buffer.growthShift (t.buffer.position + count)
       if shift = 0 then discard (writeWords words count)
       else do
        enlarge shift
        discard (writeWords words count) : Action ε W Unit) t := by
  obtain ⟨b, events⟩ := t
  have happend : (appendWords words count : Action ε W Unit) ⟨b, events⟩ =
      (discard (writeWords words count) : Action ε W Unit) (grownFor ⟨b, events⟩ count) := rfl
  rw [happend, grownFor, BitBuffer.grownFor]
  dsimp only
  split
  · simp [Event.ofSizes]
  · rename_i h
    have hne := Nat.ne_of_lt (size_lt_size_enlarge hsize h)
    rw [Event.ofSizes, if_neg hne]
    rfl

end Tracked

namespace BitBuffer

variable {b : BitBuffer W}

/-- The searches for a shift end at the least one that leaves the last word free after `total` bits.
These are also below the threshold then, so that it is the least shift that both bounds allow. An
append of many words grows once by the shift for all its bits, and not at all where that is 0. This
is the growth that a caller can ask for, as long as there can be storage of that size. -/
theorem growthShift_least_sufficient (hsize : 2 ≤ b.storage.size) (total : Nat) :
    (∀ shift, b.SearchesEndAt total shift ↔ shift = b.growthShift total) ∧
      IsLeast {s | total < (b.storage.size * 2 ^ s - 1) * W.bits} (b.growthShift total) ∧
      total < appendThreshold W (b.size * 2 ^ b.growthShift total) ∧
      IsLeast {s | total < (b.storage.size * 2 ^ s - 1) * W.bits ∧
        total < appendThreshold W (b.size * 2 ^ s)} (b.growthShift total) ∧
      (∀ (events : Array Event) (words : List (Word W)) (count : Nat),
        (Tracked.appendWords words count : Tracked.Action ε W Unit) ⟨b, events⟩ =
          (if b.growthShift (b.position + count) = 0 then discard (Tracked.writeWords words count)
           else do
            Tracked.enlarge (b.growthShift (b.position + count))
            discard (Tracked.writeWords words count) : Tracked.Action ε W Unit) ⟨b, events⟩) ∧
      ∀ (events : Array Event), b.CanGrow (b.growthShift total) →
        (Tracked.grow (b.growthShift total) : Tracked.Action ε W Unit) ⟨b, events⟩ =
          Tracked.enlarge (b.growthShift total) ⟨b, events⟩ := by
  have hmargin (s : Nat) : b.keepsMargin total s = true ↔
      total < (b.storage.size * 2 ^ s - 1) * W.bits := keepsMargin_iff
  have hthreshold (s : Nat) (h : total < (b.storage.size * 2 ^ s - 1) * W.bits) :
      total < appendThreshold W (b.size * 2 ^ s) := by
    have hbelow := belowThreshold_of_keepsMargin ((hmargin s).2 h)
    rwa [belowThreshold, decide_eq_true_iff, Nat.shiftLeft_eq] at hbelow
  have hleast := isLeast_growthShift hsize total
  simp only [hmargin] at hleast
  refine ⟨fun shift => searchesEndAt_iff hsize, hleast, hthreshold _ hleast.1, ?_, ?_, ?_⟩
  · exact ⟨⟨hleast.1, hthreshold _ hleast.1⟩, fun s hs => hleast.2 hs.1⟩
  · exact fun events words count => Tracked.appendWords_eq (t := ⟨b, events⟩) hsize words count
  · have hpos := Nat.lt_of_lt_of_le Nat.two_pos hsize
    exact fun events h => Tracked.grow_eq_enlarge (t := ⟨b, events⟩) hpos h

/-- For 900 bits, eight bytes are doubled once by the threshold, and three times more by the
margin. -/
theorem growthShift_of_nine_hundred_bits :
    ∃ b : BitBuffer .w32, b.storage.size = 2 ∧ 2 ≤ b.storage.size ∧
      b.belowThreshold 900 0 = false ∧ b.belowThreshold 900 1 = true ∧
      b.SearchesEndAt 900 4 ∧
      IsLeast {s | 900 < (2 * 2 ^ s - 1) * 32} 4 := by
  have hsize : 2 ≤ (withCapacity 8 : BitBuffer .w32).storage.size := by decide
  obtain ⟨hends, hleast, -⟩ := growthShift_least_sufficient (ε := String) hsize 900
  exact ⟨withCapacity 8, rfl, hsize, by decide, by decide, (hends 4).2 (by decide), hleast⟩

end BitBuffer
end BitTransducer
