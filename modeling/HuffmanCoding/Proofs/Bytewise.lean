import HuffmanCoding.Proofs.ByteReader
import HuffmanCoding.Proofs.Mirroring
import HuffmanCoding.Proofs.StreamContent
import HuffmanCoding.WindowDecoder

/-!
# Reading from bytes

Bits that are kept in bytes are read by looking them up in five bytes at once, past the recorded end
if need be, and bytes are read one after the other, wherever in a byte they begin. A place in bytes
shows the cursor at the same place, and each primitive operation does there what it does on this
cursor, as long as no window is wider than 32 bits (`ByteReader.isView_cursor`). So decoding a
stream from its bytes yields what decoding it from its bits yields
(`PackedStream.itemsFromBytes_eq`), including the errors and the places that they name.
-/

set_option autoImplicit false
set_option relaxedAutoImplicit false

namespace HuffmanCoding

/-! ### Places in bytes -/

namespace ByteReader

theorem isAtEnd_iff (reader : ByteReader) :
    reader.isAtEnd = true ↔ reader.cursor.isAtEnd = true := by
  rw [isAtEnd, decide_eq_true_iff, BitCursor.isAtEnd, beq_iff_eq]
  exact Nat.sub_eq_zero_iff_le.symm

/-- Moving on in the bytes moves the cursor on. -/
theorem cursor_advance (reader : ByteReader) {count : ℕ}
    (h : reader.position + count ≤ reader.bitLength) :
    (reader.advance count h).cursor = reader.cursor.drop count := by
  simp only [cursor, advance, BitCursor.drop, List.drop_drop, BitCursor.mk.injEq, true_and]
  omega

/-- Moving on twice is moving on by the sum. -/
theorem advance_advance (reader : ByteReader) {first second : ℕ}
    (hfirst : reader.position + first ≤ reader.bitLength)
    (hsecond : (reader.advance first hfirst).position + second ≤ reader.bitLength) :
    (reader.advance first hfirst).advance second hsecond =
      reader.advance (first + second) (by rwa [← Nat.add_assoc]) := by
  simp only [advance, Nat.add_assoc]

end ByteReader

/-! ### Fields -/

/-- A field is passed if it does not go on behind the recorded end, and else the reader stays. -/
theorem ByteReading.run_skip (width : ℕ) (reader : ByteReader) :
    (Reading.skip width : ByteReading Unit).run reader =
      if h : reader.bitLength < reader.position + width then
        .error (.malformed (.fieldPastEnd width) reader.position) reader
      else .ok () (reader.advance width (Nat.le_of_not_lt h)) := by
  show (if h : reader.bitLength < reader.position + width then
      Reading.fail (.fieldPastEnd width) reader.position
    else set (reader.advance width (Nat.le_of_not_lt h)) : ByteReading Unit).run reader = _
  split_ifs <;> rfl

/-- The readers have the same outcome and move on by as many bits. -/
abbrev ByteReading.Bytewise {α : Type} (fromBytes : ByteReading α) (read : Reading α) : Prop :=
  Mirrors ByteReader.cursor fromBytes read

/-- The primitive operations on bytes are those on the cursor at the same place. Numbers are looked
up at any place in a byte, and the bits behind the end do not show. -/
theorem ByteReader.isView_cursor : IsView cursor 32 where
  wide := le_rfl
  position _ := rfl
  remaining _ := rfl
  isAtEnd reader := by
    show EStateM.Result.ok reader.isAtEnd reader.cursor = .ok reader.cursor.isAtEnd reader.cursor
    rw [Bool.eq_iff_iff.mpr reader.isAtEnd_iff]
  peek count hcount reader := by
    show EStateM.Result.ok (reader.peek count) reader.cursor = .ok (reader.cursor.peek count) _
    rw [reader.peek_eq hcount]
  skip count reader := by
    rw [Reading.run_skip, ByteReading.run_skip]
    have hshort : reader.cursor.remaining < count ↔
        reader.bitLength < reader.position + count := by
      show reader.bitLength - reader.position < count ↔ _
      have hle := reader.position_le
      omega
    by_cases h : reader.bitLength < reader.position + count
    · rw [dif_pos h, if_pos (hshort.mpr h)]
      rfl
    · rw [dif_neg h, if_neg (mt hshort.mp h), ← reader.cursor_advance (Nat.le_of_not_lt h)]
      rfl
  beginItem _ := rfl
  fail _ _ _ := rfl

namespace ByteReading

theorem run_bits {reader : ByteReader} {width : ℕ}
    (h : reader.position + width ≤ reader.bitLength) :
    (Reading.bits width : ByteReading ℕ).run reader =
      .ok (reader.peek width) (reader.advance width h) := by
  show (do Reading.skip width; return reader.peek width : ByteReading ℕ).run reader = _
  rw [EStateM.run_bind, run_skip, dif_neg (Nat.not_lt_of_le h)]
  rfl

/-- A field that goes on behind the recorded end is not read, though it was looked up. -/
theorem run_bits_of_short {reader : ByteReader} {width : ℕ}
    (h : reader.bitLength < reader.position + width) :
    (Reading.bits width : ByteReading ℕ).run reader =
      .error (.malformed (.fieldPastEnd width) reader.position) reader := by
  show (do Reading.skip width; return reader.peek width : ByteReading ℕ).run reader = _
  rw [EStateM.run_bind, run_skip, dif_pos h]

/-- Bytes that are read one after the other are those that the bits spell. -/
theorem run_eachByte {reader : ByteReader} {size : ℕ}
    (h : reader.position + size * 8 ≤ reader.bitLength) :
    (Reading.eachByte size : ByteReading (List UInt8)).run reader =
      .ok (Bits.firstBytes size reader.cursor.upcoming) (reader.advance (size * 8) h) := by
  induction size generalizing reader with
  | zero => rfl
  | succ size ih =>
    have hbyte : reader.position + 8 ≤ reader.bitLength := by omega
    have hothers : (reader.advance 8 hbyte).position + size * 8 ≤ reader.bitLength := by
      show reader.position + 8 + size * 8 ≤ reader.bitLength
      omega
    have hspelled : UInt8.ofNat (reader.peek 8) = Bits.toByte reader.cursor.upcoming := by
      rw [reader.peek_eq (by decide)]
      rfl
    show (Reading.bits 8 >>= fun byte ↦ Reading.eachByte size >>= fun others ↦
      pure (UInt8.ofNat byte :: others) : ByteReading (List UInt8)).run reader = _
    rw [EStateM.run_bind, run_bits hbyte]
    dsimp only
    rw [EStateM.run_bind, ih hothers, hspelled, reader.cursor_advance hbyte]
    dsimp only
    rw [reader.advance_advance hbyte hothers]
    simp only [Nat.succ_mul, Nat.add_comm 8]
    rfl

end ByteReading

/-! ### Streams -/

namespace PackedStream

variable {α : Type} {fromBytes : ByteReading α} {read : Reading α}

/-- The beginning of a stream shows the beginning of its recorded bits. -/
theorem cursor_of_reader {stream : PackedStream} {start : ByteReader}
    (h : stream.reader = .ok start) :
    BitCursor.ofBytes stream.bytes stream.bitLength = .ok start.cursor := by
  unfold reader at h
  split_ifs at h with hrange
  cases h
  rw [stream.ofBytes_eq, if_pos (by omega), content]
  simp only [BitCursor.ofBits, ByteReader.cursor, List.drop_zero, List.length_take,
    Bits.length_ofBytes, Except.ok.injEq, BitCursor.mk.injEq, true_and]
  omega

theorem ofBytes_of_reader_error {stream : PackedStream} {error : Error}
    (h : stream.reader = .error error) :
    BitCursor.ofBytes stream.bytes stream.bitLength = .error error := by
  unfold reader at h
  split_ifs at h with hrange
  cases h
  rw [stream.ofBytes_eq, if_neg (by omega)]

/-- Items are read from the bytes of a stream as they are read from its bits. -/
theorem itemsFromBytes_eq (h : fromBytes.Bytewise read) (stream : PackedStream) :
    stream.itemsFromBytes fromBytes = stream.decodeItems read := by
  unfold itemsFromBytes decodeItems
  cases hstart : stream.reader with
  | error error =>
    rw [ofBytes_of_reader_error hstart]
    rfl
  | ok start =>
    rw [cursor_of_reader hstart]
    exact (ByteReader.isView_cursor.readItems h stream.symbolCount).outcome_eq start

/-! ### Behind the recorded end -/

/-- The streams hold the same bits up to the same recorded end. Behind it they may differ in the
last byte and in any number of bytes. -/
structure SharesContent (first second : PackedStream) : Prop where
  bitLength_eq : first.bitLength = second.bitLength
  symbolCount_eq : first.symbolCount = second.symbolCount
  first_holds : first.bitLength ≤ 8 * first.bytes.length
  second_holds : second.bitLength ≤ 8 * second.bytes.length
  bit_eq : ∀ place < first.bitLength,
    (Bits.ofBytes first.bytes)[place]? = (Bits.ofBytes second.bytes)[place]?

variable {first second : PackedStream}

theorem SharesContent.content_eq (h : first.SharesContent second) :
    first.content = second.content := by
  refine List.ext_getElem? fun place ↦ ?_
  rw [content, content, List.getElem?_take, List.getElem?_take, ← h.bitLength_eq]
  by_cases hplace : place < first.bitLength
  · rw [if_pos hplace, if_pos hplace, h.bit_eq place hplace]
  · rw [if_neg hplace, if_neg hplace]

/-- Readers do not see what is behind the recorded end. -/
theorem SharesContent.decodeItems_eq (h : first.SharesContent second) (read : Reading α) :
    first.decodeItems read = second.decodeItems read := by
  rw [decodeItems, decodeItems, first.ofBytes_eq, second.ofBytes_eq, if_pos h.first_holds,
    if_pos h.second_holds, h.content_eq, h.symbolCount_eq]

/-- The stream with other bits behind the recorded end, and zeros up to the end of a byte. -/
def followedBy (stream : PackedStream) (behind : Bits) : PackedStream :=
  { stream with bytes := Bits.toBytes (stream.content ++ behind) }

/-- Whatever follows the recorded end, the content stays. -/
theorem sharesContent_followedBy (h : first.bitLength ≤ 8 * first.bytes.length) (behind : Bits) :
    first.SharesContent (first.followedBy behind) := by
  have hlength := length_content h
  refine ⟨rfl, rfl, h, ?_, fun place hplace ↦ ?_⟩
  · simp only [followedBy, Bits.length_toBytes, List.length_append, hlength]
    omega
  · rw [followedBy, Bits.ofBytes_toBytes, List.append_assoc,
      List.getElem?_append_left (hplace.trans_eq hlength.symm), content,
      List.getElem?_take_of_lt hplace]

end PackedStream

end HuffmanCoding
