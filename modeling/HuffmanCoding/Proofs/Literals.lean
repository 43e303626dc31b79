import HuffmanCoding.Proofs.Reading
import HuffmanCoding.Symbol

/-!
# Literals

The literal of a character holds its number in a field that has room for each of them
(`gives_character`). The literal of a text holds the number of its bytes and the bytes, so it can be
read back if that number is below 2^64 (`gives_text`), which memory with addresses of 64 digits
makes sure of.
-/

set_option autoImplicit false
set_option relaxedAutoImplicit false

namespace HuffmanCoding

/-! ### Texts as bytes -/

namespace Utf8

theorem toByteArray_encode (text : String) : (encode text).toByteArray = text.toByteArray := by
  rw [← String.utf8Encode_toList]
  rfl

/-- A text comes back from its bytes. -/
theorem decode_encode (text : String) : decode (encode text) = .ok text := by
  have hvalid : String.fromUTF8? (encode text).toByteArray = some text := by
    rw [toByteArray_encode, String.fromUTF8?, dif_pos text.isValidUTF8]
    rfl
  rw [decode, hvalid]

theorem length_encode (text : String) : (encode text).length = text.utf8ByteSize := by
  rw [String.utf8ByteSize, ← toByteArray_encode, List.size_toByteArray]

/-- Each character takes a byte or more. -/
theorem length_le_utf8ByteSize (text : String) : text.length ≤ text.utf8ByteSize := by
  have hlength (characters : List Char) :
      characters.length ≤ (characters.flatMap String.utf8EncodeChar).length := by
    induction characters with
    | nil => exact Nat.zero_le _
    | cons character characters ih =>
      have hpos := character.utf8Size_pos
      rw [List.flatMap_cons, List.length_append, String.length_utf8EncodeChar, List.length_cons]
      omega
  rw [← length_encode, ← String.length_toList]
  exact hlength text.toList

end Utf8

/-- The number of bytes of a text fits into 64 digits. -/
def IsStorable (text : String) : Prop :=
  text.utf8ByteSize < UInt64.size

instance (text : String) : Decidable (IsStorable text) :=
  inferInstanceAs (Decidable (text.utf8ByteSize < UInt64.size))

theorem IsStorable.length_lt {text : String} (h : IsStorable text) : text.length < UInt64.size :=
  (Utf8.length_le_utf8ByteSize text).trans_lt h

/-! ### Reading literals -/

namespace Reading

theorem gives_character (letter : Char) :
    Gives character (Bits.ofNat characterBits letter.toNat) letter := by
  have hsmall : letter.toNat < 2 ^ characterBits := by
    have hvalid : letter.toNat < 0x110000 := by
      rcases letter.valid with h | h
      · exact h.trans (by decide)
      · exact h.2
    exact hvalid.trans (by decide)
  have hvalid : letter.toNat.isValidChar := letter.valid
  refine gives_of_position fun start ↦ (gives_ofNat hsmall).finish ?_
  rw [dif_pos hvalid]
  exact gives_pure letter

theorem gives_text {content : String} (h : IsStorable content) :
    Gives text (textLiteral content) content := by
  have hsize : (Utf8.encode content).length < UInt64.size := by
    rw [Utf8.length_encode]
    exact h
  refine gives_of_position fun start ↦ (gives_number hsize).bind ?_
  refine (gives_bytes (Utf8.encode content)).finish ?_
  simp only [Utf8.decode_encode]
  exact gives_pure content

end Reading

end HuffmanCoding
