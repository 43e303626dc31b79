import HuffmanCoding.Bits
import HuffmanCoding.Text.SpelledOut

/-!
# Codewords

A codeword is a short bit sequence, kept as a number and a length. `Codeword.path` is the bit
sequence itself, read from the root of a tree downwards; `path_push` says that `push` appends one
bit to it.
-/

set_option autoImplicit false
set_option relaxedAutoImplicit false

namespace HuffmanCoding

/-- A bit sequence held in the low `length` digits of `bits`, most significant first. -/
structure Codeword where
  bits : UInt32
  length : UInt8
  deriving DecidableEq, Hashable, Repr

namespace Codeword

def empty : Codeword := ⟨0, 0⟩

def push (codeword : Codeword) (bit : Bool) : Codeword :=
  ⟨(codeword.bits <<< 1) ||| (if bit then 1 else 0), codeword.length + 1⟩

/-- The bits of the codeword in stream order. -/
def path (codeword : Codeword) : Bits :=
  Bits.ofNat codeword.length.toNat codeword.bits.toNat

/-- The digits of the codeword as text. -/
def text (codeword : Codeword) : String :=
  String.ofList (codeword.path.map fun bit ↦ if bit then '1' else '0')

def describe (codeword : Codeword) : String :=
  SpelledOut.record "Code"
    [("bits", toString codeword.bits), ("length", toString codeword.length)]

/-- Tells whether the first codeword begins the second one, which includes that they are equal. -/
def begins (first second : Codeword) : Bool :=
  first.length ≤ second.length &&
    second.bits.toNat >>> (second.length.toNat - first.length.toNat) == first.bits.toNat

/-- The number that the codeword starts in a word of 32 digits. -/
def aligned (codeword : Codeword) : Nat :=
  codeword.bits.toNat <<< (32 - codeword.length.toNat)

/-- Codewords in the order of the streams that start with them; of two that start alike the
shorter one comes first. -/
def precedes (first second : Codeword) : Bool :=
  first.aligned < second.aligned ||
    first.aligned == second.aligned && first.length ≤ second.length

/-- Extending a codeword appends a bit to its path, as long as its number has room for it. -/
theorem path_push (codeword : Codeword) (bit : Bool) (hroom : codeword.length.toNat < 32) :
    (codeword.push bit).path = codeword.path ++ [bit] := by
  have hlength : (codeword.push bit).length.toNat = codeword.length.toNat + 1 := by
    rw [push, UInt8.toNat_add, UInt8.toNat_one]
    omega
  rw [path, path, hlength, ← Bits.ofNat_two_mul_add]
  refine Bits.ofNat_congr fun place hbelow ↦ ?_
  have hdigits : (codeword.push bit).bits.toNat =
      (codeword.bits.toNat <<< 1) % 2 ^ 32 ||| bit.toNat := by
    cases bit <;> simp [push, UInt32.toNat_or, UInt32.toNat_shiftLeft]
  rw [hdigits, Nat.testBit_or, Nat.testBit_mod_two_pow, Nat.testBit_shiftLeft]
  cases place with
  | zero => cases bit <;> simp
  | succ place =>
    have hhalf : (2 * codeword.bits.toNat + bit.toNat) / 2 = codeword.bits.toNat := by
      have := bit.toNat_lt
      omega
    have hinside : place + 1 < 32 := by omega
    rw [Nat.testBit_succ (2 * _ + _), hhalf]
    cases bit <;> simp [hinside, Nat.testBit_succ]

end Codeword

/-- What is remembered about the tables of a saved codec, so that the tables made anew when it is
loaded can be held against it. -/
structure TableRecord where
  escape : Option Codeword
  longest : UInt8
  deriving DecidableEq, Repr

namespace TableRecord

def describe (record : TableRecord) : String :=
  SpelledOut.record "BuildRecord"
    [("escape_code", SpelledOut.optional (record.escape.map Codeword.describe)),
      ("max_code_length", toString record.longest)]

end TableRecord

end HuffmanCoding
