import HuffmanCoding.Bits.ByteReader
import HuffmanCoding.Bits.Cursor
import HuffmanCoding.Proofs.Bits

/-!
# Bits looked up in bytes

A place in bytes shows a cursor at the same place (`ByteReader.cursor`). Five bytes have room for 32
bits from any place in the first byte on, so what is looked up in them is what the cursor sees: the
bits up to the recorded end, with zeros behind them (`ByteReader.peek_eq`).
-/

set_option autoImplicit false
set_option relaxedAutoImplicit false

namespace HuffmanCoding

namespace ByteReader

def cursor (reader : ByteReader) : BitCursor where
  upcoming := ((Bits.ofBytes reader.bytes).take reader.bitLength).drop reader.position
  position := reader.position
  remaining := reader.bitLength - reader.position
  remaining_eq := by
    have hle := reader.bitLength_le
    rw [List.length_drop, List.length_take, Bits.length_ofBytes, Nat.min_eq_left hle]

end ByteReader

/-! ### Bits in bytes -/

namespace Bits

theorem drop_ofBytes (bytes : List UInt8) (count : ℕ) :
    (ofBytes bytes).drop (8 * count) = ofBytes (bytes.drop count) := by
  induction count generalizing bytes with
  | zero => rfl
  | succ count ih =>
    cases bytes with
    | nil => exact List.drop_nil
    | cons byte bytes =>
      have hsplit : ofBytes (byte :: bytes) = ofByte byte ++ ofBytes bytes := rfl
      rw [List.drop_succ_cons, ← ih, hsplit, Nat.mul_succ, Nat.add_comm, ← List.drop_drop,
        List.drop_left' (length_ofByte byte)]

/-- Eight bits at the beginning of a byte are this byte. -/
theorem toNat_fit_drop_ofBytes (bytes : List UInt8) (place : ℕ) :
    toNat (fit 8 ((ofBytes bytes).drop (8 * place))) = (bytes.getD place 0).toNat := by
  rw [drop_ofBytes, List.getD_eq_getElem?_getD, ← List.head?_drop]
  cases bytes.drop place with
  | nil => rfl
  | cons byte rest =>
    have hlt : byte.toNat < 2 ^ 8 := byte.toNat_lt
    have hsplit : ofBytes (byte :: rest) = ofByte byte ++ ofBytes rest := rfl
    rw [hsplit, fit_append (length_ofByte byte), ofByte, toNat_ofNat, Nat.mod_eq_of_lt hlt]
    rfl

/-- The middle of a window is cut out by dropping digits at both ends. -/
theorem toNat_fit_shiftRight_mod (before width behind : ℕ) (bits : Bits) :
    toNat (fit (before + width + behind) bits) >>> behind % 2 ^ width =
      toNat (fit width (bits.drop before)) := by
  have hbehind := toNat_fit_lt behind (bits.drop (before + width))
  have hwidth := toNat_fit_lt width (bits.drop before)
  rw [fit_add, fit_add, toNat_append, toNat_append, length_fit, length_fit,
    Nat.shiftRight_eq_div_pow, Nat.mul_comm _ (2 ^ behind),
    Nat.mul_add_div (Nat.two_pow_pos behind), Nat.div_eq_of_lt hbehind, Nat.add_zero,
    Nat.mul_comm, Nat.mul_add_mod, Nat.mod_eq_of_lt hwidth]

/-- Bits behind an end count as zeros in a window if their digits are cleared. -/
theorem toNat_fit_take {bits : Bits} {count : ℕ} (hcount : count ≤ bits.length) (width : ℕ) :
    toNat (fit width (bits.take count)) =
      toNat (fit width bits) >>> (width - count) <<< (width - count) := by
  rcases Nat.le_total width count with hwide | hshort
  · have hsame : fit width (bits.take count) = fit width bits := by
      rw [fit, fit, List.take_take, Nat.min_eq_left hwide]
    rw [hsame, Nat.sub_eq_zero_of_le hwide]
    rfl
  · have hlength : (bits.take count).length = count := by
      rw [List.length_take, Nat.min_eq_left hcount]
    have hbehind := toNat_fit_lt (width - count) (bits.drop count)
    have hfront : fit count bits = bits.take count := by
      rw [fit, List.rightpad, hlength, Nat.sub_self, List.replicate_zero, List.append_nil]
    have hwhole : fit width bits = bits.take count ++ fit (width - count) (bits.drop count) := by
      rw [← hfront, ← fit_add, Nat.add_sub_cancel' hshort]
    rw [fit_of_length_le (hlength.le.trans hshort), hlength, toNat_append, toNat_zeros,
      List.length_replicate, Nat.add_zero, hwhole, toNat_append, length_fit, Nat.shiftLeft_eq,
      Nat.shiftRight_eq_div_pow, Nat.mul_comm _ (2 ^ (width - count)),
      Nat.mul_add_div (Nat.two_pow_pos _), Nat.div_eq_of_lt hbehind, Nat.add_zero, Nat.mul_comm]

end Bits

/-! ### Looking bits up -/

namespace ByteReader

/-- Some bytes make up the number of their bits. -/
theorem gather_eq (bytes : List UInt8) (start count : ℕ) :
    gather bytes start count =
      Bits.toNat (Bits.fit (8 * count) ((Bits.ofBytes bytes).drop (8 * start))) := by
  induction count with
  | zero => rfl
  | succ count ih =>
    rw [gather, ih, Nat.mul_succ, Bits.fit_add, Bits.toNat_append, Bits.length_fit, List.drop_drop,
      ← Nat.mul_add, Bits.toNat_fit_drop_ofBytes, Nat.shiftLeft_eq]

/-- What is looked up in five bytes is what a cursor sees. -/
theorem peek_eq (reader : ByteReader) {width : ℕ} (h : width ≤ 32) :
    reader.peek width = reader.cursor.peek width := by
  obtain ⟨bytes, bitLength, position, hbytes, hposition⟩ := reader
  have hshift : position % 8 < 8 := Nat.mod_lt _ (by decide)
  have hwindow : 8 * 5 = position % 8 + width + (40 - position % 8 - width) := by omega
  have hplace : 8 * (position / 8) + position % 8 = position := Nat.div_add_mod position 8
  have hcount : bitLength - position ≤ ((Bits.ofBytes bytes).drop position).length := by
    rw [List.length_drop, Bits.length_ofBytes]
    omega
  have hoverhang : min (position + width - bitLength) width = width - (bitLength - position) := by
    omega
  have hupcoming : ((Bits.ofBytes bytes).take bitLength).drop position =
      ((Bits.ofBytes bytes).drop position).take (bitLength - position) :=
    List.drop_take
  simp only [peek, cursor, BitCursor.peek]
  rw [hupcoming, Bits.toNat_fit_take hcount, gather_eq, hwindow, Nat.one_shiftLeft,
    Bits.toNat_fit_shiftRight_mod, List.drop_drop, hplace, hoverhang]

end ByteReader

end HuffmanCoding
