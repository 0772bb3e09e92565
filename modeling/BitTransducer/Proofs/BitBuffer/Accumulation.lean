import BitTransducer.Proofs.BitBuffer.Calls
import BitTransducer.Proofs.BitBuffer.Extensionality
import BitTransducer.Proofs.BitBuffer.Growth

/-! # Accumulating bits

A buffer that is only appended to never runs out of room. Single appends double its storage after
the write, appends of many words enlarge it before, yet both keep it `Snug`: no larger than doubling
its first storage makes necessary. So the bits that were appended determine the buffer, however they
were cut into calls.

Main statements: `Call.exists_snug` (one append), `exists_accumulated` (a sequence of them) and
`accumulated_canonical`. -/

namespace BitTransducer

variable {W : Width} {ε : Type} {t : Tracked W}

namespace Tracked

/-- An empty buffer with room for at least `bytes` bytes, of which nothing is logged. -/
def ofCapacity (bytes : Nat) : Tracked W := { buffer := .withCapacity bytes, events := #[] }

theorem exists_append {word : Word W} {count : Nat} {b : BitBuffer W}
    (h : t.buffer.append? word count = some b) :
    ∃ t', (append word count : Action ε W Unit) t = .ok () t' ∧ t'.buffer = b := by
  obtain ⟨b', hb', rfl⟩ := Option.map_eq_some_iff.1 h
  rw [BitBuffer.write?, Option.ite_none_right_eq_some, Option.some.injEq] at hb'
  obtain ⟨hroom, rfl⟩ := hb'
  rw [append, bind_of_ok (write_of_hasRoom hroom word count)]
  cases (t.buffer.put word count).nearEnd with
  | false => exact ⟨_, rfl, rfl⟩
  | true => exact ⟨_, rfl, rfl⟩

/-- What an append of many words writes to. -/
def grownFor (t : Tracked W) (count : Nat) : Tracked W :=
  { buffer := t.buffer.grownFor count
    events := t.events ++
      (Event.ofSizes t.buffer.size (t.buffer.grownFor count).size).toArray }

theorem appendWords_of_hold {words : List (Word W)} {count : Nat}
    (hsize : 2 ≤ t.buffer.storage.size) (hw : Words.Hold words count) :
    (appendWords words count : Action ε W Unit) t =
      .ok () { t.grownFor count with
        buffer := (t.buffer.grownFor count).putWords words count } :=
  discard_of_ok (writeWords_of_hasRoomFor (t := t.grownFor count)
    (BitBuffer.size_grownFor_pos hsize count) ⟨hw, BitBuffer.hasRoomFor_grownFor hsize count⟩)

end Tracked

namespace BitBuffer

/-- A sound buffer that has no more storage than the least doubling of `len` words with which the
last word is free. -/
structure Snug (len : Nat) (b : BitBuffer W) : Prop where
  sound : b.Sound
  least : IsLeast (spareSizes W len b.position) b.storage.size

namespace Snug

variable {len : Nat} {b b' : BitBuffer W}

theorem nearEnd_eq_false (h : b.Snug len) : b.nearEnd = false := nearEnd_eq_false_iff.2 h.least.1.2

theorem of_withCapacity (bytes : Nat) :
    (withCapacity bytes : BitBuffer W).Snug (capacityWords W bytes) := by
  have hs : (withCapacity bytes : BitBuffer W).Sound := sound_withCapacity bytes
  have hsize : (withCapacity bytes : BitBuffer W).storage.size = capacityWords W bytes :=
    Array.size_replicate
  have hspare := nearEnd_eq_false_iff.1 (hs.nearEnd_eq_false W.bits_pos)
  refine ⟨hs, ?_⟩
  rw [hsize] at hspare ⊢
  exact isLeast_spareSizes_self hspare

theorem trans (h : b.Snug len) (hle : b.position ≤ b'.position) (h' : b'.Snug b.storage.size) :
    b'.Snug len :=
  ⟨h'.sound, isLeast_spareSizes_trans h.least hle h'.least⟩

/-- The number of bits determines the size. -/
theorem eq_of_content_eq (h : b.Snug len) (h' : b'.Snug len) (hc : b.content = b'.content) :
    b = b' := by
  have hleast := h'.least
  rw [← h.sound.position_eq_of_content_eq h'.sound hc] at hleast
  exact h.sound.eq_of_content_eq h'.sound (h.least.unique hleast) hc

end Snug

/-! ## Appends -/

namespace Call

/-- The call appends bits: the word of a single append ends where its count says, sequences of words
hold the bits asked for, and the cursor of a source lies within its storage. -/
def Appends : Call ε W → Prop
  | append word count => word.Fits count
  | appendWords words count => Words.Hold words count
  | concat source => source.position ≤ source.storage.size * W.bits
  | _ => False

instance : DecidablePred (Appends (ε := ε) (W := W))
  | append .. => inferInstanceAs (Decidable (_ ∧ _))
  | appendWords .. => inferInstanceAs (Decidable (_ ≤ _))
  | concat _ => inferInstanceAs (Decidable (_ ≤ _))
  | write .. => inferInstanceAs (Decidable False)
  | writeWords .. => inferInstanceAs (Decidable False)
  | grow _ => inferInstanceAs (Decidable False)
  | reset => inferInstanceAs (Decidable False)
  | flushWith _ => inferInstanceAs (Decidable False)

/-- The bits that the call appends. -/
def appended : Call ε W → List Bool
  | append word count => word.toBits.take count
  | appendWords words count => (Words.toBits words).take count
  | concat source => source.content
  | _ => []

/-- An append of many words finds room wherever the cursor is, since it makes room first. -/
theorem exists_appendWords_snug (hs : t.buffer.Sound) {words : List (Word W)} {count : Nat}
    (hw : Words.Hold words count) :
    ∃ t', (Tracked.appendWords words count : Tracked.Action ε W Unit) t = .ok () t' ∧
      t'.buffer.Snug t.buffer.storage.size ∧
      t'.buffer.content = t.buffer.content ++ (Words.toBits words).take count := by
  have hgrown := hs.grownFor count
  have hroom := hasRoomFor_grownFor hs.two_le_size count
  refine ⟨_, Tracked.appendWords_of_hold hs.two_le_size hw, ⟨?_, ?_⟩, ?_⟩
  · exact hgrown.putWords hw hroom
  · rw [position_putWords _ _ _ hw, position_grownFor, size_storage_putWords]
    exact isLeast_grownFor hs.two_le_size count
  · rw [content_putWords hgrown hw hroom, content_grownFor hs]

theorem exists_snug {call : Call ε W} (ha : call.Appends) (hs : t.buffer.Sound)
    (hn : t.buffer.nearEnd = false) :
    ∃ t', call.run t = .ok () t' ∧ t'.buffer.Snug t.buffer.storage.size ∧
      t'.buffer.content = t.buffer.content ++ call.appended := by
  cases call with
  | append word count =>
    obtain ⟨b, hb, hsound, hc, hleast⟩ := hs.isLeast_append? hn ha
    obtain ⟨t', hrun, rfl⟩ := Tracked.exists_append (ε := ε) hb
    exact ⟨t', hrun, ⟨hsound, hleast⟩, hc⟩
  | appendWords words count => exact exists_appendWords_snug hs ha
  | concat source =>
    obtain ⟨t', hrun, hsnug, hc⟩ :=
      exists_appendWords_snug (ε := ε) hs (hold_writtenWords_iff.2 ha)
    rw [take_toBits_writtenWords] at hc
    exact ⟨t', hrun, hsnug, hc⟩
  | _ => exact ha.elim

end Call

/-- The bits that the calls append. -/
def accumulated (calls : List (Call ε W)) : List Bool := calls.flatMap Call.appended

/-- Appends succeed, and keep a buffer snug. -/
theorem exists_accumulated {len : Nat} {calls : List (Call ε W)}
    (ha : ∀ call ∈ calls, call.Appends) (h : t.buffer.Snug len) :
    ∃ t', (forM calls Call.run : Tracked.Action ε W Unit) t = .ok () t' ∧ t'.buffer.Snug len ∧
      t'.buffer.content = t.buffer.content ++ accumulated calls := by
  induction calls generalizing t with
  | nil => exact ⟨t, rfl, h, (List.append_nil _).symm⟩
  | cons call calls ih =>
    obtain ⟨hcall, hcalls⟩ := List.forall_mem_cons.1 ha
    obtain ⟨t₁, hrun, hsnug, hc⟩ := Call.exists_snug hcall h.sound h.nearEnd_eq_false
    have hle : t.buffer.position ≤ t₁.buffer.position := by
      rw [← h.sound.length_content, ← hsnug.sound.length_content, hc, List.length_append]
      exact Nat.le_add_right ..
    obtain ⟨t', hruns, hsnug', hc'⟩ := ih hcalls (h.trans hle hsnug)
    refine ⟨t', ?_, hsnug', ?_⟩
    · rw [List.forM_cons, bind_of_ok hrun, hruns]
    · rw [hc', hc, List.append_assoc]
      rfl

/-- Appends to an empty buffer leave the bits that they append in it. -/
theorem exists_accumulated_ofCapacity {calls : List (Call ε W)}
    (ha : ∀ call ∈ calls, call.Appends) (bytes : Nat) :
    ∃ t : Tracked W,
      (forM calls Call.run : Tracked.Action ε W Unit) (.ofCapacity bytes) = .ok () t ∧
      t.buffer.Snug (capacityWords W bytes) ∧ t.buffer.content = accumulated calls := by
  obtain ⟨t, hrun, hsnug, hc⟩ := exists_accumulated ha (t := .ofCapacity bytes) (.of_withCapacity _)
  exact ⟨t, hrun, hsnug, hc.trans (congrArg (· ++ _) (content_withCapacity bytes))⟩

/-- However the same bits are cut into appends, all succeed and leave the same bits, the same words
and the same bytes to be read, with the cursor not near the end. From the same capacity on they
leave the same buffer, whose storage is the least doubling of the first one that has a word to
spare. -/
theorem accumulated_canonical {calls₁ calls₂ : List (Call ε W)}
    (h₁ : ∀ call ∈ calls₁, call.Appends) (h₂ : ∀ call ∈ calls₂, call.Appends)
    (hbits : accumulated calls₁ = accumulated calls₂) (bytes₁ bytes₂ : Nat) :
    ∃ t₁ t₂ : Tracked W,
      (forM calls₁ Call.run : Tracked.Action ε W Unit) (.ofCapacity bytes₁) = .ok () t₁ ∧
      (forM calls₂ Call.run : Tracked.Action ε W Unit) (.ofCapacity bytes₂) = .ok () t₂ ∧
      (bytes₁ = bytes₂ → t₁.buffer = t₂.buffer) ∧
      IsLeast (spareSizes W (capacityWords W bytes₁) (accumulated calls₁).length)
        t₁.buffer.storage.size ∧
      (t₁.buffer.nearEnd = false ∧ t₂.buffer.nearEnd = false) ∧
      t₁.buffer.content = accumulated calls₁ ∧ t₁.buffer.position = t₂.buffer.position ∧
      t₁.buffer.completeWords = t₂.buffer.completeWords ∧
      t₁.buffer.partialWord? = t₂.buffer.partialWord? ∧
      t₁.buffer.toBytes = t₂.buffer.toBytes := by
  obtain ⟨t₁, hrun₁, hsnug₁, hc₁⟩ := exists_accumulated_ofCapacity h₁ bytes₁
  obtain ⟨t₂, hrun₂, hsnug₂, hc₂⟩ := exists_accumulated_ofCapacity h₂ bytes₂
  have hs₁ := hsnug₁.sound
  have hs₂ := hsnug₂.sound
  have hc : t₁.buffer.content = t₂.buffer.content := by rw [hc₁, hbits, hc₂]
  refine ⟨t₁, t₂, hrun₁, hrun₂, ?_, ?_, ⟨hsnug₁.nearEnd_eq_false, hsnug₂.nearEnd_eq_false⟩, hc₁,
    hs₁.position_eq_of_content_eq hs₂ hc, hs₁.completeWords_eq_of_content_eq hs₂ hc,
    hs₁.partialWord?_eq_of_content_eq hs₂ hc, hs₁.toBytes_eq_of_content_eq hs₂ hc⟩
  · rintro rfl
    exact hsnug₁.eq_of_content_eq hsnug₂ hc
  · rw [← hc₁, hs₁.length_content]
    exact hsnug₁.least

/-- Seventy-two bits, word by word or as one sequence of words after a first byte, take four words
from two on. -/
theorem accumulated_cut_words :
    ∃ t₁ t₂ : Tracked .w32,
      (forM [.append 0xdeadbeef 32, .append 0x01234567 32, .append 0xab000000 8] Call.run :
        Tracked.Action String .w32 Unit) (.ofCapacity 0) = .ok () t₁ ∧
      (forM [.append 0xde000000 8, .appendWords [0xadbeef01, 0x234567ab] 64] Call.run :
        Tracked.Action String .w32 Unit) (.ofCapacity 0) = .ok () t₂ ∧
      t₁.buffer = t₂.buffer ∧ t₁.buffer.storage.size = 4 := by
  obtain ⟨t₁, t₂, h₁, h₂, heq, hleast, -⟩ := accumulated_canonical (ε := String)
    (show ∀ call ∈ [.append 0xdeadbeef 32, .append 0x01234567 32, .append 0xab000000 8],
      Call.Appends (ε := String) (W := .w32) call by decide)
    (show ∀ call ∈ [.append 0xde000000 8, .appendWords [0xadbeef01, 0x234567ab] 64],
      Call.Appends (ε := String) (W := .w32) call by decide)
    (by decide) 0 0
  refine ⟨t₁, t₂, h₁, h₂, heq rfl, hleast.unique ?_⟩
  exact isLeast_spareSizes_double (by decide) (by decide)

end BitBuffer
end BitTransducer
