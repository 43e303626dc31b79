import HuffmanCoding.Bits
import Mathlib.Algebra.Group.Nat.Defs

/-!
# Bits, numbers and bytes

The passages between bits, numbers and bytes lose nothing: `ofNat_toNat` says it of numbers and
`take_ofBytes_toBytes` of bytes, while `toNat_ofNat` says what is left of a number that does not
fit.
-/

set_option autoImplicit false
set_option relaxedAutoImplicit false

namespace HuffmanCoding.Bits

/-! ### Numbers -/

theorem foldl_digits (bits : Bits) (start : Nat) :
    bits.foldl (fun value bit ↦ 2 * value + bit.toNat) start =
      start * 2 ^ bits.length + toNat bits := by
  induction bits generalizing start with
  | nil => simp [toNat]
  | cons bit bits ih =>
    simp only [toNat, List.foldl_cons, List.length_cons]
    rw [ih, ih (2 * 0 + bit.toNat), Nat.pow_succ, Nat.add_mul]
    simp only [Nat.mul_zero, Nat.zero_add, Nat.add_assoc]
    rw [Nat.mul_comm 2 start, Nat.mul_assoc, Nat.mul_comm 2]

@[simp] theorem toNat_nil : toNat [] = 0 := rfl

theorem toNat_cons (bit : Bool) (bits : Bits) :
    toNat (bit :: bits) = bit.toNat * 2 ^ bits.length + toNat bits := by
  simpa [toNat] using foldl_digits bits bit.toNat

theorem toNat_append (first second : Bits) :
    toNat (first ++ second) = toNat first * 2 ^ second.length + toNat second := by
  simpa [toNat] using foldl_digits second (toNat first)

theorem toNat_zeros (count : Nat) : toNat (List.replicate count false) = 0 := by
  induction count with
  | zero => rfl
  | succ count ih => rw [List.replicate_succ, toNat_cons, ih, Bool.toNat_false, Nat.zero_mul]

theorem toNat_lt (bits : Bits) : toNat bits < 2 ^ bits.length := by
  induction bits with
  | nil => simp
  | cons bit bits ih =>
    rw [toNat_cons, List.length_cons, Nat.pow_succ]
    cases bit <;> simp <;> omega

/-- Writing a number and reading it back leaves its low digits. -/
theorem toNat_ofNat (width value : Nat) : toNat (ofNat width value) = value % 2 ^ width := by
  induction width with
  | zero => simp [ofNat, Nat.mod_one]
  | succ width ih =>
    rw [ofNat, toNat_cons, ih, length_ofNat, Nat.pow_succ, Nat.mod_mul,
      Nat.testBit_eq_decide_div_mod_eq]
    rcases Nat.mod_two_eq_zero_or_one (value / 2 ^ width) with h | h <;> simp [h, Nat.add_comm]

/-- The bits of a sequence are the digits of its number. -/
theorem ofNat_toNat (bits : Bits) : ofNat bits.length (toNat bits) = bits := by
  induction bits with
  | nil => rfl
  | cons bit bits ih =>
    have hlow : ofNat bits.length (toNat (bit :: bits)) = ofNat bits.length (toNat bits) :=
      ofNat_congr fun place h ↦ by
        rw [toNat_cons, Nat.mul_comm, Nat.testBit_two_pow_mul_add _ (toNat_lt bits), if_pos h]
    have hhigh : (toNat (bit :: bits)).testBit bits.length = bit := by
      rw [toNat_cons, Nat.mul_comm, Nat.testBit_two_pow_mul_add _ (toNat_lt bits)]
      cases bit <;> simp
    rw [List.length_cons, ofNat, hhigh, hlow, ih]

theorem ofNat_zero (width : Nat) : ofNat width 0 = List.replicate width false := by
  have hzeros := ofNat_toNat (List.replicate width false)
  rwa [toNat_zeros, List.length_replicate] at hzeros

/-- Of the first number that needs a digit more, zeros are left. -/
theorem ofNat_two_pow (width : Nat) : ofNat width (2 ^ width) = List.replicate width false := by
  rw [← ofNat_zero]
  refine ofNat_congr fun place hplace ↦ ?_
  rw [Nat.testBit_two_pow_of_ne (Nat.ne_of_gt hplace), Nat.zero_testBit]

/-! ### Bytes -/

@[simp] theorem length_fit (width : Nat) (bits : Bits) : (fit width bits).length = width := by
  simp only [fit, List.rightpad, List.length_append, List.length_take, List.length_replicate]
  omega

theorem ofByte_toByte (bits : Bits) : ofByte (toByte bits) = fit 8 bits := by
  have hsmall : toNat (fit 8 bits) < 2 ^ 8 := by simpa using toNat_lt (fit 8 bits)
  have := ofNat_toNat (fit 8 bits)
  rw [length_fit] at this
  rw [ofByte, toByte, UInt8.toNat_ofNat_of_lt' hsmall, this]

/-- Fitting bits to a width fits the first of them to a part of it and the others to the rest. -/
theorem fit_add (first second : Nat) (bits : Bits) :
    fit (first + second) bits = fit first bits ++ fit second (bits.drop first) := by
  simp only [fit, List.rightpad, List.take_add, List.length_append, List.length_take,
    List.length_drop]
  by_cases hlong : first ≤ bits.length
  · have hnone : first - min first bits.length = 0 := by omega
    rw [hnone, List.replicate_zero, List.append_nil, List.append_assoc]
    congr 3
    omega
  · have hall : bits.drop first = [] := List.drop_of_length_le (by omega)
    rw [hall, List.take_nil, List.append_nil, List.nil_append, List.append_assoc,
      List.replicate_append_replicate]
    congr 2
    omega

/-- The bytes of a bit sequence hold its bits, with zeros behind them. -/
theorem ofBytes_firstBytes (count : Nat) (bits : Bits) :
    ofBytes (firstBytes count bits) = fit (8 * count) bits := by
  induction count generalizing bits with
  | zero => simp [firstBytes, ofBytes, fit]
  | succ count ih =>
    have hwidth : 8 * (count + 1) = 8 + 8 * count := by omega
    rw [hwidth, fit_add, ← ih, ← ofByte_toByte]
    rfl

/-- Bits that fit have zeros behind them. -/
theorem fit_of_length_le {width : Nat} {bits : Bits} (h : bits.length ≤ width) :
    fit width bits = bits ++ List.replicate (width - bits.length) false := by
  rw [fit, List.take_of_length_le h, List.rightpad]

/-- Packing bits into bytes fills the last byte up with zeros. -/
theorem ofBytes_toBytes (bits : Bits) : ofBytes (toBytes bits) =
    bits ++ List.replicate (8 * ((bits.length + 7) / 8) - bits.length) false := by
  rw [toBytes, ofBytes_firstBytes, fit_of_length_le (by omega)]

/-- Packing bits into bytes loses none of them. -/
theorem take_ofBytes_toBytes (bits : Bits) : (ofBytes (toBytes bits)).take bits.length = bits := by
  rw [ofBytes_toBytes, List.take_left]

end HuffmanCoding.Bits
