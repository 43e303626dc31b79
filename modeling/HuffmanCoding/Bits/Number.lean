import HuffmanCoding.Bits.Input

/-!
# Numbers of variable size

A number is cut into groups of seven binary digits, the low group first, and each group takes eight
bits: a mark that tells whether another group follows, then the digits. A reader takes any such
spelling of a number below 2^64, also one with more groups than needed, and refuses a larger number
as soon as it shows, which is after eleven groups at the latest.
-/

set_option autoImplicit false
set_option relaxedAutoImplicit false

namespace HuffmanCoding

def Bits.ofNumber (value : Nat) : Bits :=
  if value < 128 then ofNat 8 value
  else ofNat 8 (value % 128 + 128) ++ ofNumber (value / 128)
termination_by value

namespace Reading

variable {m : Type → Type} [Monad m] [BitInput m] {α : Type}

/-- Reads the groups of a number that began at `start`. The groups before have the value `low` and
hold `digits` digits, and `allowed` more groups may follow. -/
def numberFrom (start : Nat) : (allowed digits low : Nat) → m Nat
  | 0, _, _ => do
    let _ ← bits 8
    fail .numberTooLarge start
  | allowed + 1, digits, low => do
    let group ← bits 8
    let value := low + (group % 128) <<< digits
    if UInt64.size ≤ value then fail .numberTooLarge start
    else if group < 128 then return value
    else numberFrom start allowed (digits + 7) value

def number : m Nat := do
  numberFrom (← position) 10 0 0

/-- Reads behind a count that is checked against the bits that are left. -/
def counted (fault : Nat → StreamFault) (next : Nat → m α) : m α := do
  let start ← position
  let count ← number
  if (← remaining) < count then fail (fault count) start
  else next count

end Reading

end HuffmanCoding
