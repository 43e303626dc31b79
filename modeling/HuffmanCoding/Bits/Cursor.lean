import HuffmanCoding.Bits.Input

/-!
# Reading from a bit sequence

A cursor stands in a bit sequence and knows the bits that are still to come and how many it has
passed. A sequence is opened from bytes together with a recorded length, and what the bytes hold
behind that length is never seen. Every read states its outcome together with the cursor it leaves,
also when it fails.
-/

set_option autoImplicit false
set_option relaxedAutoImplicit false

namespace HuffmanCoding

/-- A position in a bit sequence: the bits behind it up to the recorded end, the number of bits
before it and the number of bits behind it. -/
structure BitCursor where
  upcoming : Bits
  position : Nat
  remaining : Nat
  remaining_eq : remaining = upcoming.length

/-- A computation that reads bits from a sequence. -/
abbrev Reading (α : Type) := EStateM Error BitCursor α

namespace BitCursor

def ofBits (bits : Bits) : BitCursor :=
  ⟨bits, 0, bits.length, rfl⟩

/-- The start of the first `length` bits of a byte sequence, which has to hold that many. -/
def ofBytes (bytes : List UInt8) (length : Nat) : Except Error BitCursor :=
  let available := bytes.length * 8
  if available < length then .error (.malformed (.recordedLength length available) 0)
  else .ok (ofBits ((Bits.ofBytes bytes).take length))

def isAtEnd (cursor : BitCursor) : Bool :=
  cursor.remaining == 0

/-- The cursor `count` bits further on, or at the end if fewer are left. -/
def drop (cursor : BitCursor) (count : Nat) : BitCursor where
  upcoming := cursor.upcoming.drop count
  position := cursor.position + min count cursor.remaining
  remaining := cursor.remaining - count
  remaining_eq := by simp [cursor.remaining_eq]

/-- The number that the next `width` bits spell; bits behind the end count as zeros. -/
def peek (cursor : BitCursor) (width : Nat) : Nat :=
  Bits.toNat (Bits.fit width cursor.upcoming)

end BitCursor

instance : BitInput Reading where
  position := do return (← get).position
  remaining := do return (← get).remaining
  isAtEnd := do return (← get).isAtEnd
  peek width := do return (← get).peek width
  skip width := do
    let cursor ← get
    if cursor.remaining < width then throw (.malformed (.fieldPastEnd width) cursor.position)
    else set (cursor.drop width)
  beginItem := return
  fail fault offset := throw (.malformed fault offset)

end HuffmanCoding
