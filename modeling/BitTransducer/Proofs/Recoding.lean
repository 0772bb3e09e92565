import BitTransducer.Proofs.BitReader.Reading
import BitTransducer.Proofs.Channel.Stream

/-! # Reading bits and writing them again

Any byte string can be taken apart into words of a few bits each, which a channel puts together
again. A word that is read has its bits at the top and zeros below, as a channel expects them, so
that each can be passed on as it comes. What is read does not depend on the channel
(`Transfer.exists_passOn`), and what becomes of the words that are written is the stream law.

Main statement: `encode_decoded`. -/

namespace BitTransducer

variable {W : Width} {α : Type}

/-- The same failure, with another account of its cause. -/
def Failure.map {ε ε' : Type} (f : ε → ε') : Failure ε → Failure ε'
  | error cause => .error (f cause)
  | violation cause => .violation cause

/-- A reader, and the channel that takes what is read. -/
structure Transfer (W : Width) where
  reader : BitReader
  channel : Channel W

namespace Transfer

/-- Steps fail with the error of a read or of a write, or with a violation of either side. -/
abbrev Action (W : Width) (α : Type) :=
  EStateM (Failure (ReadError ⊕ StreamError)) (Transfer W) α

def onReader (step : BitReader.Action α) : Action W α := fun t =>
  match step t.reader with
  | .ok a reader => .ok a { t with reader }
  | .error e reader => .error (e.map .inl) { t with reader }

def onChannel (step : Channel.Action W α) : Action W α := fun t =>
  match step t.channel with
  | .ok a channel => .ok a { t with channel }
  | .error e channel => .error (e.map .inr) { t with channel }

/-- Reads a word of as many bits as each of `widths` says and writes it before the next is read; the
words. -/
def passOn : (widths : List Nat) → Action W (List (Word W))
  | [] => return []
  | width :: widths => do
    let word ← onReader (BitReader.readWord W width)
    onChannel (Channel.write word width)
    let words ← passOn widths
    return word :: words

/-- Passes words on and finishes the channel. -/
def run (widths : List Nat) : Action W (List (Word W)) := do
  let words ← passOn widths
  onChannel Channel.finish
  return words

/-- A transfer of all bits of `data` to an empty channel. -/
def start (data : Array UInt8) (sink : Sink) (capacity : Nat) : Transfer W :=
  { reader := .ofBytes data, channel := .ofSink sink capacity }

theorem onReader_of_ok {step : BitReader.Action α} {t : Transfer W} {a : α} {reader : BitReader}
    (h : step t.reader = .ok a reader) : onReader step t = .ok a { t with reader } := by
  rw [onReader, h]

theorem onChannel_of_ok {step : Channel.Action W α} {t : Transfer W} {a : α} {channel : Channel W}
    (h : step t.channel = .ok a channel) : onChannel step t = .ok a { t with channel } := by
  rw [onChannel, h]

/-- The writes of words, each of as many bits as its width says. -/
def writes (words : List (Word W)) (widths : List Nat) : List (Channel.Call W) :=
  List.zipWith .write words widths

theorem exists_of_mem_writes {words : List (Word W)} {widths : List Nat}
    (h : List.Forall₂ Word.Fits words widths) {call : Channel.Call W}
    (hc : call ∈ writes words widths) :
    ∃ word width, call = .write word width ∧ word.Fits width := by
  induction h with
  | nil => cases hc
  | cons hfits _ ih =>
    cases hc with
    | head => exact ⟨_, _, rfl, hfits⟩
    | tail _ hc => exact ih hc

/-- The words that are read are fit to be written, and spell the bits that are read. They are passed
on as soon as the channel takes them. -/
theorem exists_passOn {widths : List Nat} (hw : ∀ width ∈ widths, 1 ≤ width ∧ width ≤ W.bits)
    {r : BitReader} (hr : r.Within) (hsum : widths.sum ≤ r.remaining) :
    ∃ (words : List (Word W)) (r' : BitReader), List.Forall₂ Word.Fits words widths ∧
      (writes words widths).flatMap (·.bits 0) = r.unread.take widths.sum ∧
      ∀ c c' : Channel W,
        (forM (writes words widths) Channel.Call.run : Channel.Action W Unit) c = .ok () c' →
          passOn widths ⟨r, c⟩ = .ok words ⟨r', c'⟩ := by
  induction widths generalizing r with
  | nil =>
    refine ⟨[], r, .nil, rfl, fun c c' h => ?_⟩
    cases h
    rfl
  | cons width widths ih =>
    obtain ⟨⟨hpos, hle⟩, hwidths⟩ := List.forall_mem_cons.1 hw
    rw [List.sum_cons] at hsum ⊢
    have hc : width ≤ r.remaining := Nat.le_trans (Nat.le_add_right ..) hsum
    have hlen := hr.length_take_unread hc
    have hfits := BitReader.fits_readWord hr hle hc
    have hbits := BitReader.toBits_readWord hr hle hc
    have hread := BitReader.readWord_eq hr (Nat.ne_of_gt hpos) hle hc
    obtain ⟨words, r', hwords, hspelled, hpass⟩ := ih hwidths (hr.advance hc)
      (by rw [BitReader.remaining] at hsum ⊢; dsimp only; omega)
    refine ⟨_ :: words, r', .cons hfits hwords, ?_, fun c c' h => ?_⟩
    · rw [writes, List.zipWith_cons_cons, List.flatMap_cons, ← writes, hspelled,
        BitReader.unread_advance, List.take_add]
      congr 1
      rw [Channel.Call.bits, hbits, List.take_left' hlen]
    · rw [writes, List.zipWith_cons_cons, List.forM_cons] at h
      obtain ⟨_, c₁, hwrite, hrest⟩ := exists_of_bind_ok h
      rw [passOn, bind_of_ok (onReader_of_ok hread), bind_of_ok (onChannel_of_ok hwrite),
        bind_of_ok (hpass c₁ c' hrest)]
      rfl

end Transfer

/-- Every byte string that is taken apart into words, however it is cut, and passed on to a channel
word by word comes out again, followed by the zero bytes that fill up the last word. All reads
succeed, and the words end where their widths say, as writes demand. -/
theorem encode_decoded {acceptances : List Acceptance} {flushes : List (Option String)}
    (hs : (Sink.scheduled acceptances flushes).NeverFails) (capacity : Nat) (data : Array UInt8)
    {widths : List Nat} (hw : ∀ width ∈ widths, 1 ≤ width ∧ width ≤ W.bits)
    (hsum : widths.sum = 8 * data.size) :
    ∃ (words : List (Word W)) (t : Transfer W) (n : Nat),
      Transfer.run widths (.start data (.scheduled acceptances flushes) capacity) = .ok words t ∧
      List.Forall₂ Word.Fits words widths ∧
      t.channel.sink.received = data.toList ++ List.replicate n 0 ∧ n < W.bytes ∧
      W.bytes ∣ data.size + n := by
  obtain ⟨words, r, hfits, hspelled, hpass⟩ :=
    Transfer.exists_passOn hw (BitReader.within_ofBytes data) (Nat.le_of_eq hsum)
  have hunread : (BitReader.ofBytes data).unread.length = widths.sum := by
    rw [(BitReader.within_ofBytes data).length_unread, hsum]
    rfl
  rw [← hunread, List.take_length, BitReader.unread_ofBytes] at hspelled
  have hvalid : ∀ call ∈ Transfer.writes words widths, call.Valid := by
    intro call hmem
    obtain ⟨word, width, rfl, hfit⟩ := Transfer.exists_of_mem_writes hfits hmem
    exact hfit
  obtain ⟨c, hc, hbits⟩ := Channel.exists_finished hs rfl capacity hvalid
  rw [Channel.written_eq_flatMap, hspelled] at hbits
  · rw [List.forM_append] at hc
    obtain ⟨_, c₁, hwritten, hfinish⟩ := exists_of_bind_ok hc
    rw [List.forM_cons] at hfinish
    obtain ⟨_, c₂, hfinish, hnil⟩ := exists_of_bind_ok hfinish
    cases hnil
    obtain ⟨n, hn, hdvd, hreceived⟩ := Bits.eq_append_of_padTo hbits
    refine ⟨words, ⟨r, c⟩, n, ?_, hfits, hreceived, hn, by rwa [Array.length_toList] at hdvd⟩
    rw [Transfer.run, Transfer.start, bind_of_ok (hpass _ _ hwritten),
      bind_of_ok (Transfer.onChannel_of_ok hfinish)]
    rfl
  · intro call hmem
    obtain ⟨word, width, rfl, -⟩ := Transfer.exists_of_mem_writes hfits hmem
    exact ⟨nofun, nofun⟩

/-- Three bytes, cut across their boundaries, fill a word with one zero byte. -/
theorem encode_decoded_three_bytes :
    ∃ (words : List (Word .w32)) (t : Transfer .w32),
      Transfer.run [3, 14, 7]
        (.start #[0xde, 0xad, 0xbe] (.scheduled [.take 1, .interrupted] []) 0) = .ok words t ∧
      List.Forall₂ Word.Fits words [3, 14, 7] ∧
      t.channel.sink.received = [0xde, 0xad, 0xbe, 0x00] := by
  obtain ⟨words, t, n, hrun, hfits, hreceived, hn, hdvd⟩ := encode_decoded (W := .w32)
    (show (Sink.scheduled [.take 1, .interrupted] []).NeverFails by decide) 0 #[0xde, 0xad, 0xbe]
    (show ∀ width ∈ [3, 14, 7], 1 ≤ width ∧ width ≤ Width.w32.bits by decide) rfl
  change 4 ∣ 3 + n at hdvd
  change n < 4 at hn
  obtain rfl : n = 1 := by omega
  exact ⟨words, t, hrun, hfits, hreceived⟩

end BitTransducer
