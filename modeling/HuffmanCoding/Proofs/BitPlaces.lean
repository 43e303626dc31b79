import HuffmanCoding.Proofs.Bytewise
import Mathlib.Data.List.GetD

/-!
# Bits by their places

Each bit of a sequence that is kept in bytes has a place: eight of them share a byte, the highest
digit first, and from the recorded end on all bits count as zeros, whatever the bytes hold there
(`ByteReader.bitAt`). The bits from a place on spell a number (`ByteReader.numberAt`), whose digits
they are (`testBit_numberAt`).

What is looked up in five bytes is the number that is spelled from the position on
(`peek_eq_numberAt`), wherever in a byte it begins and however near the end is.
-/

set_option autoImplicit false
set_option relaxedAutoImplicit false

namespace HuffmanCoding

/-! ### Bits of numbers and of bytes -/

namespace Bits

theorem getD_ofNat {width index : ℕ} (h : index < width) (value : ℕ) :
    (ofNat width value).getD index false = value.testBit (width - 1 - index) := by
  induction width generalizing index with
  | zero => exact absurd h (Nat.not_lt_zero index)
  | succ width ih =>
    cases index with
    | zero => rfl
    | succ index =>
      have hplace : width + 1 - 1 - (index + 1) = width - 1 - index := by omega
      rw [ofNat, List.getD_cons_succ, ih (Nat.lt_of_succ_lt_succ h), hplace]

/-- The bits of bytes are the digits of the bytes, eight of each. -/
theorem getD_ofBytes (bytes : List UInt8) (place : ℕ) : (ofBytes bytes).getD place false =
    (bytes.getD (place / 8) 0).toNat.testBit (7 - place % 8) := by
  have hsplit : 8 * (place / 8) + place % 8 = place := Nat.div_add_mod place 8
  have hinside : place % 8 < 8 := Nat.mod_lt _ (by decide)
  have hdrop : (ofBytes bytes).getD place false =
      (ofBytes (bytes.drop (place / 8))).getD (place % 8) false := by
    rw [← drop_ofBytes, List.getD_eq_getElem?_getD, List.getD_eq_getElem?_getD,
      List.getElem?_drop, hsplit]
  have hbyte : bytes.getD (place / 8) 0 = (bytes.drop (place / 8)).head?.getD 0 := by
    rw [List.head?_drop, List.getD_eq_getElem?_getD]
  rw [hdrop, hbyte]
  cases bytes.drop (place / 8) with
  | nil => exact (Nat.zero_testBit _).symm
  | cons byte rest =>
    have hfirst : ofBytes (byte :: rest) = ofByte byte ++ ofBytes rest := rfl
    rw [hfirst, List.getD_append _ _ _ _ (by rwa [length_ofByte]), ofByte, getD_ofNat hinside]
    rfl

/-- A window that is one bit wider has one digit more at its end. -/
theorem toNat_fit_succ (width : ℕ) (bits : Bits) :
    toNat (fit (width + 1) bits) = 2 * toNat (fit width bits) + (bits.getD width false).toNat := by
  have hlast : fit 1 (bits.drop width) = [bits.getD width false] := by
    rw [List.getD_eq_getElem?_getD, ← List.head?_drop]
    cases bits.drop width <;> rfl
  rw [fit_add, toNat_append, hlast, toNat_cons, toNat_nil]
  simp only [List.length_singleton, List.length_nil, Nat.pow_zero, Nat.mul_one, Nat.add_zero,
    Nat.pow_one, Nat.mul_comm]

end Bits

/-! ### Places in a recorded sequence -/

namespace ByteReader

variable (reader : ByteReader)

/-- The bit at a place, counted from the beginning of the bytes. From the recorded end on there are
zeros. -/
def bitAt (place : ℕ) : Bool :=
  decide (place < reader.bitLength) &&
    (reader.bytes.getD (place / 8) 0).toNat.testBit (7 - place % 8)

/-- The number that `width` bits from a place on spell, the first of them highest. -/
def numberAt (place : ℕ) : (width : ℕ) → ℕ
  | 0 => 0
  | width + 1 => 2 * numberAt place width + (reader.bitAt (place + width)).toNat

theorem numberAt_lt (place width : ℕ) : reader.numberAt place width < 2 ^ width := by
  induction width with
  | zero => exact Nat.one_pos
  | succ width ih =>
    have hbit := (reader.bitAt (place + width)).toNat_lt
    rw [numberAt, Nat.pow_succ]
    omega

/-- The bits that spell a number are its digits. -/
theorem testBit_numberAt {width index : ℕ} (h : index < width) (place : ℕ) :
    (reader.numberAt place width).testBit (width - 1 - index) = reader.bitAt (place + index) := by
  induction width with
  | zero => exact absurd h (Nat.not_lt_zero index)
  | succ width ih =>
    have hhalf : (2 * reader.numberAt place width + (reader.bitAt (place + width)).toNat) / 2 =
        reader.numberAt place width := by
      have hbit := (reader.bitAt (place + width)).toNat_lt
      omega
    rw [numberAt]
    rcases Nat.lt_succ_iff_lt_or_eq.mp h with hbefore | rfl
    · have hplace : width + 1 - 1 - index = width - 1 - index + 1 := by omega
      rw [hplace, Nat.testBit_succ, hhalf, ih hbefore]
    · rw [Nat.add_sub_cancel, Nat.sub_self, Nat.testBit_zero]
      cases reader.bitAt (place + index) <;> simp

/-- The bits that are next for a cursor are those from the position on. -/
theorem getD_cursor (index : ℕ) :
    reader.cursor.upcoming.getD index false = reader.bitAt (reader.position + index) := by
  rw [cursor, bitAt, ← Bits.getD_ofBytes, List.getD_eq_getElem?_getD,
    List.getD_eq_getElem?_getD, List.getElem?_drop, List.getElem?_take]
  split_ifs with hinside
  · rw [decide_eq_true hinside, Bool.true_and]
  · rw [decide_eq_false hinside, Bool.false_and]
    rfl

/-- A window that begins `offset` bits further on shows the number that is spelled there. -/
theorem toNat_fit_drop_cursor (offset width : ℕ) :
    Bits.toNat (Bits.fit width (reader.cursor.upcoming.drop offset)) =
      reader.numberAt (reader.position + offset) width := by
  induction width with
  | zero => rfl
  | succ width ih =>
    have hlast : (reader.cursor.upcoming.drop offset).getD width false =
        reader.bitAt (reader.position + offset + width) := by
      rw [List.getD_eq_getElem?_getD, List.getElem?_drop, ← List.getD_eq_getElem?_getD, getD_cursor,
        Nat.add_assoc]
    rw [numberAt, Bits.toNat_fit_succ, ih, hlast]

/-- A cursor sees the number that is spelled from the position on. -/
theorem cursor_peek (width : ℕ) :
    reader.cursor.peek width = reader.numberAt reader.position width :=
  reader.toNat_fit_drop_cursor 0 width

/-- What is looked up in five bytes is the number that is spelled from the position on. -/
theorem peek_eq_numberAt {width : ℕ} (h : width ≤ 32) :
    reader.peek width = reader.numberAt reader.position width := by
  rw [reader.peek_eq h, cursor_peek]

/-! ### Moving on -/

theorem remaining_le : reader.remaining ≤ reader.bitLength :=
  Nat.sub_le _ _

/-- Bits that are left reach up to the recorded end. -/
theorem position_add_le {width : ℕ} (h : width ≤ reader.remaining) :
    reader.position + width ≤ reader.bitLength := by
  have hle := reader.position_le
  unfold remaining at h
  omega

/-- The reader stands `count` bits further on in the same bits. -/
structure IsPast (left reader : ByteReader) (count : ℕ) : Prop where
  bytes_eq : left.bytes = reader.bytes
  bitLength_eq : left.bitLength = reader.bitLength
  position_eq : left.position = reader.position + count

variable {reader}

theorem isPast_zero : reader.IsPast reader 0 :=
  ⟨rfl, rfl, rfl⟩

theorem isPast_advance {count : ℕ} (h : reader.position + count ≤ reader.bitLength) :
    (reader.advance count h).IsPast reader count :=
  ⟨rfl, rfl, rfl⟩

variable {middle left other : ByteReader} {count more : ℕ}

theorem IsPast.trans (hfirst : middle.IsPast reader count) (hsecond : left.IsPast middle more) :
    left.IsPast reader (count + more) where
  bytes_eq := hsecond.bytes_eq.trans hfirst.bytes_eq
  bitLength_eq := hsecond.bitLength_eq.trans hfirst.bitLength_eq
  position_eq := by rw [hsecond.position_eq, hfirst.position_eq, Nat.add_assoc]

/-- There is one place that is `count` bits further on. -/
theorem IsPast.unique (hleft : left.IsPast reader count) (hother : other.IsPast reader count) :
    left = other := by
  obtain ⟨bytes, bitLength, position, hbytes, hposition⟩ := left
  obtain ⟨bytes', bitLength', position', hbytes', hposition'⟩ := other
  simp only [mk.injEq]
  exact ⟨hleft.bytes_eq.trans hother.bytes_eq.symm,
    hleft.bitLength_eq.trans hother.bitLength_eq.symm,
    hleft.position_eq.trans hother.position_eq.symm⟩

/-- Moving on does not move the bits. -/
theorem IsPast.numberAt_eq (h : left.IsPast reader count) (place width : ℕ) :
    left.numberAt place width = reader.numberAt place width := by
  induction width with
  | zero => rfl
  | succ width ih => rw [numberAt, numberAt, ih, bitAt, bitAt, h.bytes_eq, h.bitLength_eq]

theorem IsPast.cursor_eq (h : left.IsPast reader count) :
    left.cursor = reader.cursor.drop count := by
  have hroom : reader.position + count ≤ reader.bitLength := by
    rw [← h.position_eq, ← h.bitLength_eq]
    exact left.position_le
  rw [h.unique (isPast_advance hroom), reader.cursor_advance hroom]

end ByteReader

end HuffmanCoding
