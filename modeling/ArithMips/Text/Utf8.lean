import ArithMips.Text.Basic

/-!
# Text from bytes

Bytes are read as UTF-8, piece by piece: a piece is either a character or malformed.  A malformed piece is a byte
that starts no character, or the start of a character up to the byte that cannot follow.

* `Utf8.text?` refuses bytes with a malformed piece;
* `Utf8.lossyText` shows the replacement character in place of every malformed piece.
-/

namespace ArithMips.Utf8

/-- What may follow the first byte of a character: the bits that this byte contributes, and the range of each
further byte. -/
structure Lead where
  bits : Nat
  ranges : List (Nat × Nat)

/-- The range of the bytes that continue a character. -/
def anyTail : Nat × Nat := (0x80, 0xBF)

/-- What a byte starts, if it starts a character.  The range of the second byte rules out characters written with
more bytes than needed, surrogates, and numbers above the last character. -/
def lead? (b : Nat) : Option Lead :=
  if b ≤ 0x7F then some ⟨b, []⟩
  else if 0xC2 ≤ b ∧ b ≤ 0xDF then some ⟨b - 0xC0, [anyTail]⟩
  else if b = 0xE0 then some ⟨0, [(0xA0, 0xBF), anyTail]⟩
  else if b = 0xED then some ⟨b - 0xE0, [(0x80, 0x9F), anyTail]⟩
  else if 0xE1 ≤ b ∧ b ≤ 0xEF then some ⟨b - 0xE0, [anyTail, anyTail]⟩
  else if b = 0xF0 then some ⟨0, [(0x90, 0xBF), anyTail, anyTail]⟩
  else if b = 0xF4 then some ⟨b - 0xF0, [(0x80, 0x8F), anyTail, anyTail]⟩
  else if 0xF1 ≤ b ∧ b ≤ 0xF3 then some ⟨b - 0xF0, [anyTail, anyTail, anyTail]⟩
  else none

/-- Reads the further bytes of a character.  Gives its number, or nothing at the first byte out of range, and the
bytes that were not read. -/
def tail (bits : Nat) : (ranges : List (Nat × Nat)) → (bytes : List UInt8) → Option Nat × List UInt8
  | [], bytes => (some bits, bytes)
  | _ :: _, [] => (none, [])
  | (low, high) :: ranges, b :: bytes =>
    if low ≤ b.toNat ∧ b.toNat ≤ high then tail (bits * 64 + b.toNat % 64) ranges bytes else (none, b :: bytes)

private theorem length_tail_le (bits : Nat) (ranges : List (Nat × Nat)) (bytes : List UInt8) :
    (tail bits ranges bytes).2.length ≤ bytes.length := by
  induction ranges generalizing bits bytes with
  | nil => exact Nat.le_refl _
  | cons range ranges ih =>
    cases bytes with
    | nil => exact Nat.le_refl _
    | cons b bytes =>
      unfold tail
      split
      · exact Nat.le_succ_of_le (ih _ _)
      · exact Nat.le_refl _

/-- The pieces of bytes: characters, and nothing for each malformed piece. -/
def pieces : List UInt8 → List (Option Char)
  | [] => []
  | b :: bytes =>
    match lead? b.toNat with
    | none => none :: pieces bytes
    | some lead =>
      let read := tail lead.bits lead.ranges bytes
      read.1.map Char.ofNat :: pieces read.2
termination_by bytes => bytes.length
decreasing_by
  · exact Nat.lt_succ_self _
  · exact Nat.lt_succ_of_le (length_tail_le _ _ _)

/-- The character shown for a malformed piece. -/
def replacement : Char := '\ufffd'

/-- The text of bytes without a malformed piece. -/
def text? (bytes : ByteArray) : Option Text := (pieces bytes.data.toList).mapM id

/-- The text of bytes, with the replacement character for every malformed piece. -/
def lossyText (bytes : ByteArray) : Text := (pieces bytes.data.toList).map (·.getD replacement)

end ArithMips.Utf8
