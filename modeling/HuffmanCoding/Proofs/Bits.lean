import HuffmanCoding.Bits.Lemmas
import Mathlib.Data.List.Infix
import Mathlib.Data.Nat.Notation

/-!
# Windows into bit sequences

The first bits of a number of fixed width are what is left of it when its low digits are dropped
(`take_ofNat`). So a number that fits into `length` digits begins a window of `width` bits exactly
if it is left when the window is shifted (`ofNat_prefix_ofNat_iff`), and the windows that it begins
are consecutive numbers (`ofNat_prefix_ofNat_iff_mem_range`).
-/

set_option autoImplicit false
set_option relaxedAutoImplicit false

namespace HuffmanCoding.Bits

/-- Two bit sequences part if neither of them begins the other one. -/
def Part (first second : Bits) : Prop :=
  ¬ first <+: second ∧ ¬ second <+: first

instance (first second : Bits) : Decidable (Part first second) :=
  inferInstanceAs (Decidable (_ ∧ _))

theorem Part.symm {first second : Bits} (h : Part first second) : Part second first :=
  ⟨h.2, h.1⟩

/-- Two bit sequences that begin the same one do not part. -/
theorem not_part_of_prefix {first second whole : Bits} (hfirst : first <+: whole)
    (hsecond : second <+: whole) : ¬ Part first second := by
  intro hpart
  rcases List.prefix_or_prefix_of_prefix hfirst hsecond with h | h
  · exact hpart.1 h
  · exact hpart.2 h

/-! ### Numbers of a fixed width -/

/-- Dropping low digits of a number leaves its first bits. -/
theorem take_ofNat {length width : ℕ} (h : length ≤ width) (value : ℕ) :
    (ofNat width value).take length = ofNat length (value >>> (width - length)) := by
  induction length generalizing width with
  | zero => rfl
  | succ length ih =>
    obtain ⟨width, rfl⟩ := Nat.exists_eq_add_of_le' (Nat.one_le_of_lt h)
    have hle : length ≤ width := Nat.le_of_succ_le_succ h
    have hdigit : width - length + length = width := Nat.sub_add_cancel hle
    rw [ofNat, ofNat, List.take_succ_cons, ih hle, Nat.succ_sub_succ, Nat.testBit_shiftRight,
      hdigit]

/-- The bits of a number are those of its upper part and then those of its lower part. -/
theorem ofNat_add (upper lower value : ℕ) :
    ofNat (upper + lower) value = ofNat upper (value >>> lower) ++ ofNat lower value := by
  induction upper with
  | zero => rw [Nat.zero_add, ofNat, List.nil_append]
  | succ upper ih =>
    rw [Nat.succ_add, ofNat, ofNat, ih, Nat.testBit_shiftRight, List.cons_append,
      Nat.add_comm lower]

/-- Digits above the width do not show. -/
theorem ofNat_mod (width value : ℕ) : ofNat width (value % 2 ^ width) = ofNat width value :=
  ofNat_congr fun place hplace ↦ by rw [Nat.testBit_mod_two_pow, decide_eq_true hplace,
    Bool.true_and]

/-- The lower part of a shifted number is zeros. -/
theorem ofNat_shiftLeft (width value : ℕ) :
    ofNat width (value <<< width) = List.replicate width false := by
  have hzero : ofNat width (value <<< width) = ofNat width 0 := ofNat_congr fun place hplace ↦ by
    rw [Nat.testBit_shiftLeft, decide_eq_false (Nat.not_le.mpr hplace), Nat.zero_testBit,
      Bool.false_and]
  rw [hzero]
  clear hzero
  induction width with
  | zero => rfl
  | succ width ih => rw [ofNat, ih, Nat.zero_testBit, List.replicate_succ]

/-- Numbers that fit into a width are told apart by their bits. -/
theorem ofNat_inj {width first second : ℕ} (hfirst : first < 2 ^ width)
    (hsecond : second < 2 ^ width) : ofNat width first = ofNat width second ↔ first = second := by
  refine ⟨fun h ↦ ?_, fun h ↦ h ▸ rfl⟩
  have hvalue := congrArg toNat h
  rwa [toNat_ofNat, toNat_ofNat, Nat.mod_eq_of_lt hfirst, Nat.mod_eq_of_lt hsecond] at hvalue

/-- A number begins a window if it is left when the window is shifted. -/
theorem ofNat_prefix_ofNat_iff {length width value window : ℕ} (hlength : length ≤ width)
    (hvalue : value < 2 ^ length) (hwindow : window < 2 ^ width) :
    ofNat length value <+: ofNat width window ↔ window >>> (width - length) = value := by
  have hshifted : window >>> (width - length) < 2 ^ length := by
    rw [Nat.shiftRight_eq_div_pow]
    refine Nat.div_lt_of_lt_mul ?_
    rwa [← Nat.pow_add, Nat.sub_add_cancel hlength]
  rw [List.prefix_iff_eq_take, length_ofNat, take_ofNat hlength, ofNat_inj hvalue hshifted]
  exact eq_comm

/-- The windows that a number begins are consecutive. -/
theorem ofNat_prefix_ofNat_iff_mem_range {length width value window : ℕ} (hlength : length ≤ width)
    (hvalue : value < 2 ^ length) (hwindow : window < 2 ^ width) :
    ofNat length value <+: ofNat width window ↔
      value <<< (width - length) ≤ window ∧
        window < value <<< (width - length) + 1 <<< (width - length) := by
  have hpos : 0 < 2 ^ (width - length) := Nat.two_pow_pos _
  rw [ofNat_prefix_ofNat_iff hlength hvalue hwindow, Nat.shiftRight_eq_div_pow, Nat.shiftLeft_eq,
    Nat.shiftLeft_eq, ← Nat.add_mul, Nat.div_eq_iff hpos, Nat.add_mul, Nat.one_mul]
  omega

/-- The last window that a number begins is a window. -/
theorem shiftLeft_add_le {length width value : ℕ} (hlength : length ≤ width)
    (hvalue : value < 2 ^ length) :
    value <<< (width - length) + 1 <<< (width - length) ≤ 2 ^ width := by
  rw [Nat.shiftLeft_eq, Nat.shiftLeft_eq, ← Nat.add_mul]
  calc (value + 1) * 2 ^ (width - length)
      ≤ 2 ^ length * 2 ^ (width - length) := Nat.mul_le_mul_right _ hvalue
    _ = 2 ^ width := by rw [← Nat.pow_add, Nat.add_sub_cancel' hlength]

/-! ### Windows -/

/-- The number of a window has the bits of the window. -/
theorem ofNat_toNat_fit (width : ℕ) (bits : Bits) :
    ofNat width (toNat (fit width bits)) = fit width bits := by
  have hback := ofNat_toNat (fit width bits)
  rwa [length_fit] at hback

theorem toNat_fit_lt (width : ℕ) (bits : Bits) : toNat (fit width bits) < 2 ^ width := by
  have hlt := toNat_lt (fit width bits)
  rwa [length_fit] at hlt

/-- What begins a bit sequence begins its windows that are wide enough. -/
theorem prefix_fit {start bits : Bits} {width : ℕ} (h : start <+: bits)
    (hwidth : start.length ≤ width) : start <+: fit width bits := by
  have htake : start <+: bits.take width := by
    rw [List.prefix_take_iff]
    exact ⟨h, hwidth⟩
  exact htake.trans (List.prefix_append _ _)

/-- A window is the bits themselves if there are as many. -/
theorem fit_append {width : ℕ} {start rest : Bits} (h : start.length = width) :
    fit width (start ++ rest) = start := by
  rw [fit, List.take_left' h, List.rightpad, h, Nat.sub_self, List.replicate_zero, List.append_nil]

/-! ### Bytes -/

@[simp] theorem length_ofByte (byte : UInt8) : (ofByte byte).length = 8 :=
  length_ofNat 8 _

@[simp] theorem length_ofBytes (bytes : List UInt8) :
    (ofBytes bytes).length = bytes.length * 8 := by
  induction bytes with
  | nil => rfl
  | cons byte bytes ih =>
    rw [ofBytes, List.flatMap_cons, List.length_append, length_ofByte, List.length_cons]
    change 8 + (ofBytes bytes).length = _
    rw [ih]
    omega

theorem ofBytes_append (first second : List UInt8) :
    ofBytes (first ++ second) = ofBytes first ++ ofBytes second :=
  List.flatMap_append

@[simp] theorem length_firstBytes (count : ℕ) (bits : Bits) :
    (firstBytes count bits).length = count := by
  induction count generalizing bits with
  | zero => rfl
  | succ count ih => rw [firstBytes, List.length_cons, ih]

@[simp] theorem length_toBytes (bits : Bits) : (toBytes bits).length = (bits.length + 7) / 8 :=
  length_firstBytes _ _

theorem ofByte_ofNat (value : ℕ) : ofByte (UInt8.ofNat value) = ofNat 8 value :=
  ofNat_mod 8 value

theorem toByte_ofByte_append (byte : UInt8) (rest : Bits) :
    toByte (ofByte byte ++ rest) = byte := by
  have hlt : byte.toNat < 2 ^ 8 := byte.toNat_lt
  rw [toByte, fit_append (length_ofByte byte), ofByte, toNat_ofNat, Nat.mod_eq_of_lt hlt,
    UInt8.ofNat_toNat]

/-- The bytes come back from their bits. -/
theorem toBytes_ofBytes (bytes : List UInt8) : toBytes (ofBytes bytes) = bytes := by
  have hcount : ((ofBytes bytes).length + 7) / 8 = bytes.length := by
    rw [length_ofBytes]
    omega
  rw [toBytes, hcount]
  clear hcount
  induction bytes with
  | nil => rfl
  | cons byte bytes ih =>
    rw [ofBytes, List.flatMap_cons, List.length_cons, firstBytes, toByte_ofByte_append,
      List.drop_left' (length_ofByte byte)]
    exact congrArg (byte :: ·) ih

end HuffmanCoding.Bits
