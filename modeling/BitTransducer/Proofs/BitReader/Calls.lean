import BitTransducer.Proofs.BitReader.Checked
import BitTransducer.Proofs.BitReader.Reading

/-! # A reader as a list of bits

A reader over the first bits of a byte string is the list of the bits that are left of it, whatever
calls were made on it (`Reached`). A read of many bits is as many reads of one bit, and leaves what
they leave; a call that returns an error leaves the reader where it was.

Main statements: `readEachBit_eq`, `Call.run_of_error`, `Call.exists_run` (how a call ends),
`Reached.onward` (what a sequence of them keeps) and `reads_bit_list`. -/

namespace BitTransducer
namespace BitReader

variable {W : Width} {r r' : BitReader} {count : Nat}

/-! ## One bit after the other -/

/-- Reads `count` bits, each by itself. -/
def readEachBit : (count : Nat) → Action (List Bool)
  | 0 => return []
  | count + 1 => do
    let bit ← readBit
    return (bit = 1) :: (← readEachBit count)

theorem readBit_eq (h : r.Within) (hc : 1 ≤ r.remaining) :
    readBit r =
      .ok (Bits.value (r.unread.take 1)) { r with position := r.position + 1 } := by
  have hlt : r.position / 8 < r.data.size := by
    have := h.length_le
    rw [remaining] at hc
    omega
  have hbyte := Array.getElem?_eq_getElem hlt
  have hroom : 1 ≤ 8 - r.position % 8 := by omega
  have hvalue := value_take_drop_ofByte r.data[r.position / 8] hroom
  rw [← take_drop_ofBytes (by rwa [Array.getElem?_toList]) hroom, ← take_unread hc] at hvalue
  have hget : (get : Action BitReader) r = .ok r r := rfl
  rw [readBit, bind_of_ok (demand_of_le hc), bind_of_ok hget, hbyte, ← hvalue, Nat.sub_right_comm]
  rfl

/-- Read one by one, the next bits are those that are left first. -/
theorem readEachBit_eq (h : r.Within) (hc : count ≤ r.remaining) :
    readEachBit count r =
      .ok (r.unread.take count) { r with position := r.position + count } := by
  induction count generalizing r with
  | zero => rfl
  | succ count ih =>
    have h1 : 1 ≤ r.remaining := Nat.le_trans (Nat.succ_pos count) hc
    have hnext := ih (h.advance h1) (by rw [remaining] at hc ⊢; dsimp only; omega)
    rw [unread_advance] at hnext
    have hlen := h.length_unread
    cases hunread : r.unread with
    | nil =>
      rw [hunread] at hlen
      exact absurd (hlen ▸ h1) (by decide)
    | cons bit bits =>
      rw [hunread, List.drop_one, List.tail_cons] at hnext
      have hbit : decide (Bits.value [bit] = 1) = bit := by cases bit <;> rfl
      rw [readEachBit, bind_of_ok (readBit_eq h h1), bind_of_ok hnext, hunread, Nat.add_right_comm]
      show EStateM.Result.ok (decide (Bits.value [bit] = 1) :: bits.take count) _ = _
      rw [hbit]
      rfl

/-! ## Errors -/

def underflow? (count remaining : Nat) : Option ReadError :=
  if remaining < count then some .underflow else none

/-- The error of a read of `count` bits, `limit` at most: that there is no such read comes before
that too few bits are left. -/
def lengthError? (limit count remaining : Nat) : Option ReadError :=
  if count = 0 ∨ limit < count then some (.invalidLength count) else underflow? count remaining

theorem underflow?_eq_none {remaining : Nat} (h : underflow? count remaining = none) :
    count ≤ remaining := by
  rw [underflow?] at h
  split at h
  · cases h
  · omega

theorem lengthError?_eq_none {limit remaining : Nat}
    (h : lengthError? limit count remaining = none) :
    count ≠ 0 ∧ count ≤ limit ∧ count ≤ remaining := by
  rw [lengthError?] at h
  split at h
  · cases h
  · have := underflow?_eq_none h
    omega

theorem demand_of_error {e : ReadError} (he : underflow? count r.remaining = some e) :
    demand count r = .error (.error e) r := by
  rw [underflow?] at he
  split at he
  · rename_i hc
    cases he
    exact demand_of_lt hc
  · cases he

theorem readBits_of_error {e : ReadError} (he : lengthError? 64 count r.remaining = some e) :
    readBits count r = .error (.error e) r := by
  rw [lengthError?] at he
  rw [readBits]
  split at he
  · rename_i hc
    cases he
    rw [if_pos hc]
    rfl
  · rename_i hc
    rw [if_neg hc]
    exact bind_of_error (demand_of_error he)

theorem readWord_of_error {e : ReadError} (he : lengthError? W.bits count r.remaining = some e) :
    readWord W count r = .error (.error e) r := by
  have hbits : W.bits ≤ 64 := by cases W <;> decide
  rw [readWord]
  by_cases hW : W.bits < count
  · rw [lengthError?, if_pos (.inr hW)] at he
    cases he
    rw [if_pos hW]
    rfl
  · rw [if_neg hW]
    refine bind_of_error (readBits_of_error ?_)
    rw [← he, lengthError?, lengthError?]
    congr 1
    rw [eq_iff_iff]
    omega

/-! ## Calls -/

/-- A call on a reader that may move it. -/
inductive Call
  | readBit
  | readBits (count : Nat)
  | readWord (W : Width) (count : Nat)
  | skip (count : Nat)
  | alignWord (W : Width)

/-- What a call returns. -/
inductive Answer
  | number (value : Nat)
  | word {W : Width} (word : Word W)
  | nothing

/-- The reader that a call leaves: as far as before or further on in the same bits. -/
structure Onward (r r' : BitReader) : Prop where
  data_eq : r'.data = r.data
  length_eq : r'.length = r.length
  position_le : r.position ≤ r'.position
  within : r'.Within

namespace Onward

theorem refl (h : r.Within) : Onward r r := ⟨rfl, rfl, Nat.le_refl _, h⟩

theorem trans {r'' : BitReader} (h : Onward r r') (h' : Onward r' r'') : Onward r r'' :=
  ⟨h'.data_eq.trans h.data_eq, h'.length_eq.trans h.length_eq,
    Nat.le_trans h.position_le h'.position_le, h'.within⟩

theorem of_advance (h : r.Within) (hc : count ≤ r.remaining) :
    Onward r { r with position := r.position + count } :=
  ⟨rfl, rfl, Nat.le_add_right .., h.advance hc⟩

end Onward

namespace Call

def run : Call → Action Answer
  | readBit => Answer.number <$> BitReader.readBit
  | readBits count => Answer.number <$> BitReader.readBits count
  | readWord W count => Answer.word <$> BitReader.readWord W count
  | skip count => (fun _ => Answer.nothing) <$> BitReader.skip count
  | alignWord W => (fun _ => Answer.nothing) <$> BitReader.alignWord W

/-- Makes the call in numbers of fixed width. -/
def runChecked : Call → Action Answer
  | readBit => Answer.number <$> BitVec.toNat <$> readBitChecked
  | readBits count => Answer.number <$> BitVec.toNat <$> readBitsChecked count
  | readWord W count => Answer.word <$> readWordChecked W count
  | skip count => (skip count).run
  | alignWord W => (alignWord W).run

/-- The error that the call returns when so many bits are left. Only what is read into a number or a
word has a limit: bits that are passed over are as many bits read one by one and dropped. -/
def error? : Call → (remaining : Nat) → Option ReadError
  | readBit, remaining => underflow? 1 remaining
  | readBits count, remaining => lengthError? 64 count remaining
  | readWord W count, remaining => lengthError? W.bits count remaining
  | skip count, remaining => underflow? count remaining
  | alignWord _, _ => none

theorem runChecked_eq (call : Call) : call.runChecked = call.run := by
  cases call with
  | readBit => rw [runChecked, readBitChecked_eq, run]
  | readBits count => rw [runChecked, readBitsChecked_eq, run]
  | readWord W count => rw [runChecked, readWordChecked_eq, run]
  | skip count => rfl
  | alignWord W => rfl

/-- A call that returns an error leaves the reader where it was. -/
theorem run_of_error {call : Call} {e : ReadError} (he : call.error? r.remaining = some e) :
    call.run r = .error (.error e) r := by
  cases call with
  | readBit => exact map_of_error (bind_of_error (demand_of_error he))
  | readBits count => exact map_of_error (readBits_of_error he)
  | readWord W count => exact map_of_error (readWord_of_error he)
  | skip count => exact map_of_error (bind_of_error (demand_of_error he))
  | alignWord W => cases he

theorem exists_run (h : r.Within) {call : Call} (hn : call.error? r.remaining = none) :
    ∃ answer r', call.run r = .ok answer r' ∧ Onward r r' := by
  cases call with
  | readBit =>
    have hc := underflow?_eq_none hn
    exact ⟨_, _, map_of_ok (readBit_eq h hc), .of_advance h hc⟩
  | readBits count =>
    obtain ⟨h0, h64, hc⟩ := lengthError?_eq_none hn
    exact ⟨_, _, map_of_ok (readBits_eq h h0 h64 hc), .of_advance h hc⟩
  | readWord W count =>
    obtain ⟨h0, hW, hc⟩ := lengthError?_eq_none hn
    exact ⟨_, _, map_of_ok (readWord_eq h h0 hW hc), .of_advance h hc⟩
  | skip count =>
    have hc := underflow?_eq_none hn
    exact ⟨_, _, map_of_ok (skip_eq hc), .of_advance h hc⟩
  | alignWord W =>
    refine ⟨_, _, map_of_ok (alignWord_eq h.position_le), rfl, rfl, ?_, ?_⟩
    · exact Nat.le_min.2 ⟨Bits.le_ceilDiv_mul _ W.bits_pos, h.position_le⟩
    · exact ⟨Nat.min_le_right .., h.length_le⟩

/-- Every call returns, with the error that there is for so many bits left, if any. -/
theorem exists_returns (h : r.Within) (call : Call) :
    ∃ r', Returns call.run r (call.error? r.remaining) r' ∧ Onward r r' ∧
      (call.error? r.remaining ≠ none → r' = r) := by
  cases he : call.error? r.remaining with
  | none =>
    obtain ⟨answer, r', hrun, honward⟩ := exists_run h he
    exact ⟨r', ⟨answer, hrun⟩, honward, fun hne => absurd rfl hne⟩
  | some e => exact ⟨r, run_of_error he, .refl h, fun _ => rfl⟩

end Call

/-! ## Sequences of calls -/

/-- Calls, made in turn and with whatever errors, lead from one reader to the other. -/
inductive Reached (r₀ : BitReader) : BitReader → Prop
  | start : Reached r₀ r₀
  | call {r r' : BitReader} {error? : Option ReadError} (h : Reached r₀ r) (call : Call)
      (hr : Returns call.run r error? r') : Reached r₀ r'

theorem Reached.onward {r₀ : BitReader} (h₀ : r₀.Within) (h : Reached r₀ r) : Onward r₀ r := by
  induction h with
  | start => exact .refl h₀
  | call _ call hr ih =>
    obtain ⟨r', hr', honward, -⟩ := call.exists_returns ih.within
    rw [(hr.unique hr').2]
    exact ih.trans honward

/-- To align a reader again makes no difference. -/
theorem alignWord_idem (r : BitReader) (W : Width) :
    alignWord W { r with position := min (Bits.ceilDiv r.position W.bits * W.bits) r.length } =
      .ok () { r with position := min (Bits.ceilDiv r.position W.bits * W.bits) r.length } := by
  have hidem : min (Bits.ceilDiv (min (Bits.ceilDiv r.position W.bits * W.bits) r.length) W.bits *
      W.bits) r.length = min (Bits.ceilDiv r.position W.bits * W.bits) r.length := by
    rcases Nat.le_total (Bits.ceilDiv r.position W.bits * W.bits) r.length with hle | hle
    · rw [Nat.min_eq_left hle, Bits.ceilDiv_mul_self _ W.bits_pos, Nat.min_eq_left hle]
    · rw [Nat.min_eq_right hle, Nat.min_eq_right (Bits.le_ceilDiv_mul _ W.bits_pos)]
  rw [alignWord_eq (Nat.min_le_right ..), hidem]

/-- After every sequence of calls a reader over the first bits of a byte string is within these
bits. Every further call returns, moves it forward at most to their end, finds all bytes that it
looks at and loses none of the bits that it shifts; an error is that of the count before that of too
few bits, and leaves the reader where it was. Reads of many bits, and skipping them, come to as many
reads of one bit, and aligning to the next word boundary or to the end. -/
theorem reads_bit_list (data : Array UInt8) (length : Nat) (hlen : length ≤ 8 * data.size) :
    ∃ r₀, ofPrefix data length = .ok r₀ ∧ ∀ r, Reached r₀ r →
      (r.unread = ((Bits.ofBytes data.toList).take length).drop r.position ∧
        r.remaining = length - r.position ∧ r.position ≤ length) ∧
      (∀ call : Call, call.runChecked r = call.run r ∧
        ∃ r', Returns call.run r (call.error? r.remaining) r' ∧
          r.position ≤ r'.position ∧ r'.position ≤ length ∧
          (call.error? r.remaining ≠ none → r' = r)) ∧
      (∀ count ≤ r.remaining,
        readEachBit count r =
            .ok (r.unread.take count) { r with position := r.position + count } ∧
          skip count r = .ok () { r with position := r.position + count } ∧
          (1 ≤ count → count ≤ 64 → readBits count r =
            .ok (Bits.value (r.unread.take count)) { r with position := r.position + count }) ∧
          ∀ W : Width, 1 ≤ count → count ≤ W.bits → ∃ word : Word W,
            readWord W count r = .ok word { r with position := r.position + count } ∧
              word.toBits = r.unread.take count ++ List.replicate (W.bits - count) false) ∧
      ∀ W : Width, ∃ r', alignWord W r = .ok () r' ∧
        r' = { r with position := min (Bits.ceilDiv r.position W.bits * W.bits) length } ∧
        alignWord W r' = .ok () r' := by
  have h₀ : Within { data, length, position := 0 } := ⟨Nat.zero_le _, hlen⟩
  refine ⟨_, if_pos hlen, fun r hr => ?_⟩
  obtain ⟨hdata, hlength, -, h⟩ := hr.onward h₀
  dsimp only at hdata hlength
  have hle := h.position_le
  rw [hlength] at hle
  refine ⟨⟨?_, ?_, hle⟩, fun call => ⟨congrFun call.runChecked_eq r, ?_⟩, fun count hc => ?_,
    fun W => ?_⟩
  · rw [unread, hdata, hlength]
  · rw [remaining, hlength]
  · obtain ⟨r', hret, honward, herror⟩ := call.exists_returns h
    have hle' := honward.within.position_le
    rw [honward.length_eq, hlength] at hle'
    exact ⟨r', hret, honward.position_le, hle', herror⟩
  · refine ⟨readEachBit_eq h hc, skip_eq hc, fun h0 h64 => ?_, fun W h0 hW => ?_⟩
    · exact readBits_eq h (Nat.one_le_iff_ne_zero.1 h0) h64 hc
    · exact ⟨_, readWord_eq h (Nat.one_le_iff_ne_zero.1 h0) hW hc, toBits_readWord h hW hc⟩
  · rw [← hlength]
    exact ⟨_, alignWord_eq h.position_le, rfl, alignWord_idem r W⟩

/-- Five bits of one byte are read as a number, and then there are no more; a word of more bits than
it has is refused before that. -/
theorem reads_bit_list_of_five_bits :
    ∃ r₀ r, ofPrefix #[0xf0] 5 = .ok r₀ ∧ readBits 5 r₀ = .ok 0b11110 r ∧ Reached r₀ r ∧
      r.unread = [] ∧ ∃ r', Returns (Call.run (.readWord .w64 65)) r (some (.invalidLength 65)) r' ∧
        r' = r := by
  obtain ⟨r₀, hr₀, hreads⟩ := reads_bit_list #[0xf0] 5 (by decide)
  cases hr₀
  obtain ⟨-, -, hcounts, -⟩ := hreads _ .start
  have hread := (hcounts 5 (by decide)).2.2.1 (by decide) (by decide)
  have hreturns : Returns (Call.run (.readBits 5)) _ none _ := ⟨_, map_of_ok hread⟩
  have hreached := Reached.start.call (.readBits 5) hreturns
  obtain ⟨⟨hunread, -⟩, hcalls, -⟩ := hreads _ hreached
  obtain ⟨-, r', herror, -, -, hsame⟩ := hcalls (.readWord .w64 65)
  exact ⟨_, _, rfl, hread, hreached, hunread.trans (by decide), r', herror, hsame (by decide)⟩

end BitReader
end BitTransducer
