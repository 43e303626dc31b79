import HuffmanCoding.Bits.ByteReader
import HuffmanCoding.Bits.ByteWriter
import HuffmanCoding.Symbol

/-!
# Numbers and lengths in words

A number of variable size is read into a word of 64 digits. The digits of each group are shifted to
their place and joined to the word, and what is shifted out at the upper end of a word would be
lost without a trace. So two things are looked at before a group is joined: the eleventh group has
no place in the word, and of the tenth one only the lowest digit has (`ByteReading.wordNumber`).

The recorded length of a sequence is a word, too, and so is the number of bits that the bytes hold
(`ByteReader.ofBytes`) and the number of bytes that a caller asks for (`ByteReading.wordBytes`),
where a product that does not fit into a word is replaced by the greatest word. Places are
counted without a bound; they do not go beyond the recorded length.
-/

set_option autoImplicit false
set_option relaxedAutoImplicit false

namespace HuffmanCoding

/-- The beginning of the bits that are kept in bytes, which have to be as many as are recorded. -/
def ByteReader.ofBytes (bytes : List UInt8) (bitLength : UInt64) : Except Error ByteReader :=
  let available := UInt64.ofNat bytes.length * 8
  if h : bitLength ≤ available then
    .ok
      { bytes
        bitLength := bitLength.toNat
        position := 0
        bitLength_le := by
          have hproduct : available.toNat ≤ bytes.length * 8 := by
            rw [UInt64.toNat_mul, UInt64.toNat_ofNat']
            exact Nat.le_trans (Nat.mod_le _ _) (Nat.mul_le_mul_right 8 (Nat.mod_le _ _))
          exact Nat.le_trans (UInt64.le_iff_toNat_le.mp h) hproduct
        position_le := Nat.zero_le _ }
  else .error (.malformed (.recordedLength bitLength.toNat available.toNat) 0)

namespace ByteReading

open Reading

/-- Reads the groups of a number that began at `start` into a word. The digits of the next group
belong `shift` places up. -/
def groupsFrom (start shift : Nat) (word : UInt64) : ByteReading UInt64 := do
  let group := UInt64.ofNat (← bits 8)
  if h : 64 ≤ shift ∨ shift = 63 ∧ 1 < group &&& 0x7F then fail .numberTooLarge start
  else
    let word := word ||| (group &&& 0x7F) <<< UInt64.ofNat shift
    if group &&& 0x80 = 0 then return word
    else groupsFrom start (shift + 7) word
termination_by 71 - shift

def wordNumber : ByteReading UInt64 := do
  groupsFrom (← position) 0 0

def wordBytes (size : UInt64) : ByteReading (List UInt8) :=
  bytesWithin (min (size.toNat * 8) (UInt64.size - 1)) size.toNat

def wordText : ByteReading String :=
  textWith wordNumber wordBytes

end ByteReading

namespace ByteWriting

theorem toNat_shiftRight_seven (value : UInt64) : (value >>> 7).toNat = value.toNat / 128 := by
  rw [UInt64.toNat_shiftRight, Nat.shiftRight_eq_div_pow]
  rfl

theorem shiftRight_seven_eq_zero_iff {value : UInt64} : value >>> 7 = 0 ↔ value.toNat < 128 := by
  rw [← UInt64.toNat_inj, toNat_shiftRight_seven, UInt64.toNat_zero]
  exact Nat.div_eq_zero_iff_lt (by decide)

/-- Writes a number of variable size, whose groups are taken off the lower end of a word. -/
def wordNumber (value : UInt64) : ByteWriting Unit :=
  let group := value &&& 0x7F
  let rest := value >>> 7
  if rest = 0 then put 8 group.toNat
  else do
    put 8 (group ||| 0x80).toNat
    wordNumber rest
termination_by value.toNat
decreasing_by
  rename_i hrest
  rw [shiftRight_seven_eq_zero_iff] at hrest
  rw [toNat_shiftRight_seven]
  omega

def wordText (content : String) : ByteWriting Unit := do
  wordNumber (UInt64.ofNat (Utf8.encode content).length)
  bytes (Utf8.encode content)

end ByteWriting

end HuffmanCoding
