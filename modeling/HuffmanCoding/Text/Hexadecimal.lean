/-!
# Bytes as hexadecimal digits

Two lower case digits for each byte, the high digit first.
-/

set_option autoImplicit false
set_option relaxedAutoImplicit false

namespace HuffmanCoding.Hexadecimal

def digit (value : Nat) : Char :=
  Nat.digitChar value

def encode (bytes : List UInt8) : String :=
  String.ofList (bytes.flatMap fun byte ↦ [digit (byte.toNat / 16), digit (byte.toNat % 16)])

/-- The number that a digit stands for. Upper case digits are taken too. -/
def value? (digit : Char) : Option Nat :=
  if digit.isDigit then some (digit.toNat - 0x30)
  else if 'a' ≤ digit ∧ digit ≤ 'f' then some (digit.toNat - 0x57)
  else if 'A' ≤ digit ∧ digit ≤ 'F' then some (digit.toNat - 0x37)
  else none

/-- The bytes that pairs of digits stand for. -/
def decodeDigits? : List Char → Option (List UInt8)
  | [] => some []
  | high :: low :: rest => do
    let high ← value? high
    let low ← value? low
    let bytes ← decodeDigits? rest
    return UInt8.ofNat (16 * high + low) :: bytes
  | [_] => none

/-- The bytes that a text of digits stands for. -/
def decode? (digits : String) : Option (List UInt8) :=
  decodeDigits? digits.toList

end HuffmanCoding.Hexadecimal
