import HuffmanCoding.Bits.Input

/-!
# Reading from bytes

Where the bits are kept in bytes, the next few of them are looked up in five bytes at once. The
bytes begin with the one in which the next bit stands, and bytes behind the last one count as zeros;
together they are a number of forty digits. The bits before and behind the wanted ones are cut off
from it, and those behind the recorded end, which the bytes may well hold, are cleared.
-/

set_option autoImplicit false
set_option relaxedAutoImplicit false

namespace HuffmanCoding

/-- A place in a bit sequence that is kept in bytes, with the recorded number of bits and the number
of bits before the place. -/
structure ByteReader where
  bytes : List UInt8
  bitLength : Nat
  position : Nat
  bitLength_le : bitLength ≤ bytes.length * 8
  position_le : position ≤ bitLength

/-- A computation that reads bits from bytes. -/
abbrev ByteReading (α : Type) := EStateM Error ByteReader α

namespace ByteReader

/-- The number that `count` bytes make up, the first one highest. Bytes behind the last one are
zeros. -/
def gather (bytes : List UInt8) (start : Nat) : (count : Nat) → Nat
  | 0 => 0
  | count + 1 => gather bytes start count <<< 8 + (bytes.getD (start + count) 0).toNat

/-- The number that the next `width` bits spell, looked up in five bytes. -/
def peek (reader : ByteReader) (width : Nat) : Nat :=
  let shift := reader.position % 8
  let window := gather reader.bytes (reader.position / 8) 5
  let value := window >>> (40 - shift - width) % (1 <<< width)
  let overhang := min (reader.position + width - reader.bitLength) width
  value >>> overhang <<< overhang

def remaining (reader : ByteReader) : Nat :=
  reader.bitLength - reader.position

def isAtEnd (reader : ByteReader) : Bool :=
  reader.bitLength ≤ reader.position

/-- The place `count` bits further on, which must not be behind the recorded end. -/
def advance (reader : ByteReader) (count : Nat) (h : reader.position + count ≤ reader.bitLength) :
    ByteReader :=
  { reader with
    position := reader.position + count
    position_le := h }

end ByteReader

instance : BitInput ByteReading where
  position := do return (← get).position
  remaining := do return (← get).remaining
  isAtEnd := do return (← get).isAtEnd
  peek width := do return (← get).peek width
  skip width := do
    let reader ← get
    if h : reader.bitLength < reader.position + width then
      throw (.malformed (.fieldPastEnd width) reader.position)
    else set (reader.advance width (Nat.le_of_not_lt h))
  beginItem := return
  fail fault offset := throw (.malformed fault offset)

end HuffmanCoding
