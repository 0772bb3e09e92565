/-! # UTF-8 text

The bytes of a text, and the text of bytes that need not be valid UTF-8: U+FFFD stands in place of
what cannot be decoded, once for every run of bytes that begins a well-formed sequence without
completing it, and once for every other byte that fits nowhere. -/

namespace BitTransducer
namespace Utf8

/-- The bytes of a text. -/
def encode (text : String) : List UInt8 := text.toUTF8.data.toList

theorem encode_append (text text' : String) :
    encode (text ++ text') = encode text ++ encode text' := by
  rw [encode, String.toUTF8, String.toByteArray_append, ByteArray.data_append, Array.toList_append]
  rfl

theorem encode_join (pieces : List String) :
    encode (String.join pieces) = pieces.flatMap encode := by
  induction pieces with
  | nil => rfl
  | cons piece pieces ih => rw [String.join_cons, encode_append, ih, List.flatMap_cons]

/-- The character in place of what cannot be decoded. -/
def replacement : Char := Char.ofNat 0xFFFD

/-- A sequence that has begun: the code point so far, the range that the next byte is in, and the
number of bytes after that. -/
structure Sequence where
  point : Nat
  low : Nat
  high : Nat
  more : Nat

/-- The sequence that a byte begins. The ranges of the second byte leave out overlong forms,
surrogates and what is beyond the last code point. -/
def Sequence.ofLead? (byte : Nat) : Option Sequence :=
  if 0xC2 ≤ byte ∧ byte ≤ 0xDF then some ⟨byte - 0xC0, 0x80, 0xBF, 0⟩
  else if byte = 0xE0 then some ⟨0, 0xA0, 0xBF, 1⟩
  else if byte = 0xED then some ⟨0xD, 0x80, 0x9F, 1⟩
  else if 0xE1 ≤ byte ∧ byte ≤ 0xEF then some ⟨byte - 0xE0, 0x80, 0xBF, 1⟩
  else if byte = 0xF0 then some ⟨0, 0x90, 0xBF, 2⟩
  else if 0xF1 ≤ byte ∧ byte ≤ 0xF3 then some ⟨byte - 0xF0, 0x80, 0xBF, 2⟩
  else if byte = 0xF4 then some ⟨4, 0x80, 0x8F, 2⟩
  else none

/-- What a byte completes and what it begins when no sequence has begun. -/
def first (byte : Nat) : List Char × Option Sequence :=
  if byte < 0x80 then ([Char.ofNat byte], none)
  else match Sequence.ofLead? byte with
    | some s => ([], some s)
    | none => ([replacement], none)

/-- What a byte completes and what has begun after it. -/
def next (begun : Option Sequence) (byte : Nat) : List Char × Option Sequence :=
  match begun with
  | none => first byte
  | some s =>
    if s.low ≤ byte ∧ byte ≤ s.high then
      let point := 64 * s.point + byte % 64
      if s.more = 0 then ([Char.ofNat point], none)
      else ([], some ⟨point, 0x80, 0xBF, s.more - 1⟩)
    else
      let (chars, begun) := first byte
      (replacement :: chars, begun)

/-- The characters of bytes after the sequence that has begun. -/
def decodeFrom (begun : Option Sequence) : List UInt8 → List Char
  | [] => if begun.isSome then [replacement] else []
  | byte :: bytes =>
    let (chars, begun) := next begun byte.toNat
    chars ++ decodeFrom begun bytes

/-- The text of a byte string, with replacements. -/
def decode (bytes : List UInt8) : String := String.ofList (decodeFrom none bytes)

end Utf8
end BitTransducer
