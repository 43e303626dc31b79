/-!
# Bits in stream order

Everything a codec writes is a sequence of bits, most significant bit first. This module holds
the sequence itself and the two passages out of it: numbers of a fixed width (`Bits.ofNat`,
`Bits.toNat`) and bytes (`Bits.ofBytes`, `Bits.toBytes`), where the last byte is filled up with
zeros. Neither passage loses a bit.
-/

set_option autoImplicit false
set_option relaxedAutoImplicit false

namespace HuffmanCoding

/-- A sequence of bits in the order in which they travel. -/
abbrev Bits := List Bool

namespace Bits

/-- The number whose binary digits are the bits, most significant first. -/
def toNat (bits : Bits) : Nat :=
  bits.foldl (fun value bit ↦ 2 * value + bit.toNat) 0

/-- The low `width` binary digits of a number, most significant first. -/
def ofNat : (width value : Nat) → Bits
  | 0, _ => []
  | width + 1, value => value.testBit width :: ofNat width value

/-- The first `width` bits, with zeros behind them if there are fewer. -/
def fit (width : Nat) (bits : Bits) : Bits :=
  (bits.take width).rightpad width false

def ofByte (byte : UInt8) : Bits :=
  ofNat 8 byte.toNat

def ofBytes (bytes : List UInt8) : Bits :=
  bytes.flatMap ofByte

/-- The byte that starts with the given bits and goes on with zeros. -/
def toByte (bits : Bits) : UInt8 :=
  UInt8.ofNat (toNat (fit 8 bits))

/-- The first `count` bytes of a bit sequence that goes on with zeros. -/
def firstBytes : (count : Nat) → Bits → List UInt8
  | 0, _ => []
  | count + 1, bits => toByte bits :: firstBytes count (bits.drop 8)

/-- The bytes that hold the bits; the last one is filled up with zeros. -/
def toBytes (bits : Bits) : List UInt8 :=
  firstBytes ((bits.length + 7) / 8) bits

/-! ### Numbers -/

@[simp] theorem length_ofNat (width value : Nat) : (ofNat width value).length = width := by
  induction width with
  | zero => rfl
  | succ width ih => simp [ofNat, ih]

/-- Numbers with the same low digits have the same bits. -/
theorem ofNat_congr {width first second : Nat}
    (hsame : ∀ place < width, first.testBit place = second.testBit place) :
    ofNat width first = ofNat width second := by
  induction width with
  | zero => rfl
  | succ width ih =>
    rw [ofNat, ofNat, hsame width (by omega), ih fun place h ↦ hsame place (by omega)]

/-- A digit more at the end of a number is a bit more at the end of its bits. -/
theorem ofNat_two_mul_add (width value : Nat) (bit : Bool) :
    ofNat (width + 1) (2 * value + bit.toNat) = ofNat width value ++ [bit] := by
  induction width with
  | zero => cases bit <;> simp [ofNat, Nat.testBit_zero]
  | succ width ih =>
    have hhalf : (2 * value + bit.toNat) / 2 = value := by have := bit.toNat_lt; omega
    rw [ofNat, ih, ofNat, Nat.testBit_succ, hhalf, List.cons_append]

end Bits

end HuffmanCoding
