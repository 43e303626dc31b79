import HuffmanCoding.PackedStream
import HuffmanCoding.Proofs.Bits

/-!
# Bits put into bytes

Where bits are written into bytes, the bits of the byte that is not complete yet wait in a buffer. A
field is shifted into the buffer from below, then complete bytes are taken off its upper end
(`ByteWriter.put`), and in the end the last byte is filled up with zeros (`ByteWriter.stream`).

The buffer is a word of 64 digits. Fewer than eight bits wait in it, so it has room for a field of
up to 32 bits, and putting a field adds the bits of the field behind what was written, wherever in a
byte they begin (`content_put`). What the writer ends with is its bits, packed into a stream
(`stream_eq`).
-/

set_option autoImplicit false
set_option relaxedAutoImplicit false

namespace HuffmanCoding

theorem Bits.ofNat_mod_one_shiftLeft (width value : ℕ) :
    ofNat width (value % (1 <<< width)) = ofNat width value := by
  rw [Nat.one_shiftLeft, ofNat_mod]

namespace ByteWriter

/-- A buffer holds its complete bytes and then the bits that remain. -/
theorem ofBytes_completeBytes (count buffer : ℕ) :
    Bits.ofBytes (completeBytes count buffer) ++ Bits.ofNat (count % 8) buffer =
      Bits.ofNat count buffer := by
  fun_induction completeBytes count buffer with
  | case1 count hcount =>
    rw [Nat.mod_eq_of_lt hcount]
    rfl
  | case2 count hcount ih =>
    have hsplit : 8 + (count - 8) = count := by omega
    have hremain : count % 8 = (count - 8) % 8 := by omega
    have hwhole := Bits.ofNat_add 8 (count - 8) buffer
    rw [hsplit, ← ih, ← Bits.ofByte_ofNat, ← List.append_assoc] at hwhole
    rw [hwhole, hremain]
    rfl

/-! ### What was written -/

def content (writer : ByteWriter) : Bits :=
  Bits.ofBytes writer.bytes ++ Bits.ofNat writer.count writer.buffer

theorem content_empty : empty.content = [] := rfl

theorem length_content (writer : ByteWriter) : writer.content.length = writer.written := by
  rw [content, List.length_append, Bits.length_ofBytes, Bits.length_ofNat, writer.written_eq]

/-- A field is shifted into the buffer behind the bits that wait there. -/
theorem ofNat_buffer (writer : ByteWriter) {width : ℕ} (h : width ≤ 32) (value : ℕ) :
    Bits.ofNat (writer.count + width)
        ((writer.buffer <<< width) % UInt64.size ||| value % (1 <<< width)) =
      Bits.ofNat writer.count writer.buffer ++ Bits.ofNat width value := by
  have hcount := writer.count_lt
  rw [Bits.ofNat_add, Nat.one_shiftLeft, show UInt64.size = 2 ^ 64 from rfl]
  congr 1
  · refine Bits.ofNat_congr fun place hplace ↦ ?_
    have hinside : width + place < 64 := by omega
    have hbelow : ¬ width + place < width := by omega
    rw [Nat.testBit_shiftRight, Nat.testBit_or, Nat.testBit_mod_two_pow, Nat.testBit_mod_two_pow,
      Nat.testBit_shiftLeft, Nat.add_sub_cancel_left, decide_eq_true hinside,
      decide_eq_true (Nat.le_add_right width place), decide_eq_false hbelow]
    simp only [Bool.true_and, Bool.false_and, Bool.or_false]
  · refine Bits.ofNat_congr fun place hplace ↦ ?_
    rw [Nat.testBit_or, Nat.testBit_mod_two_pow, Nat.testBit_mod_two_pow, Nat.testBit_shiftLeft,
      decide_eq_true hplace, decide_eq_false (Nat.not_le.mpr hplace)]
    simp only [Bool.true_and, Bool.false_and, Bool.and_false, Bool.false_or]

/-- Putting a field adds its bits behind what was written. -/
theorem content_put (writer : ByteWriter) {width : ℕ} (h : width ≤ 32) (value : ℕ) :
    (writer.put width value).content = writer.content ++ Bits.ofNat width value := by
  rw [content, content, List.append_assoc, ← writer.ofNat_buffer h value, put, Bits.ofBytes_append,
    Bits.ofNat_mod_one_shiftLeft, List.append_assoc, ofBytes_completeBytes]

/-- The last byte holds the bits that wait in the buffer, and zeros behind them. -/
theorem ofByte_buffer (writer : ByteWriter) :
    Bits.ofByte (UInt8.ofNat (writer.buffer <<< (8 - writer.count))) =
      Bits.ofNat writer.count writer.buffer ++ List.replicate (8 - writer.count) false := by
  have hsplit : writer.count + (8 - writer.count) = 8 := Nat.add_sub_cancel' writer.count_lt.le
  have hwhole := Bits.ofNat_add writer.count (8 - writer.count)
    (writer.buffer <<< (8 - writer.count))
  rwa [hsplit, Nat.shiftLeft_shiftRight, Bits.ofNat_shiftLeft, ← Bits.ofByte_ofNat] at hwhole

/-- A writer ends with the stream of the bits that were written. -/
theorem stream_eq (writer : ByteWriter) (symbolCount : ℕ) :
    writer.stream symbolCount = .ofBits writer.content symbolCount := by
  have hcount := writer.count_lt
  have hlength := writer.length_content
  have hwritten := writer.written_eq
  have hbits : Bits.ofBytes (writer.stream symbolCount).bytes =
      Bits.ofBytes (Bits.toBytes writer.content) := by
    rw [Bits.ofBytes_toBytes, stream, Bits.ofBytes_append, content, List.append_assoc]
    congr 1
    by_cases hzero : writer.count = 0
    · have hnone : 8 * ((writer.content.length + 7) / 8) - writer.content.length = 0 := by omega
      rw [content] at hnone
      rw [if_pos hzero, hnone, hzero]
      rfl
    · have hrest : 8 * ((writer.content.length + 7) / 8) - writer.content.length =
          8 - writer.count := by omega
      rw [content] at hrest
      rw [if_neg hzero, hrest, ← ofByte_buffer]
      exact List.append_nil _
  have hbytes := congrArg Bits.toBytes hbits
  rw [Bits.toBytes_ofBytes, Bits.toBytes_ofBytes] at hbytes
  rw [PackedStream.ofBits, ← hbytes, hlength]
  rfl

end ByteWriter

end HuffmanCoding
