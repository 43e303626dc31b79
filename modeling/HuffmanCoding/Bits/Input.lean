import HuffmanCoding.Bits
import HuffmanCoding.Error

/-!
# Ways to read bits

Bits are read from different sources: from a sequence of bits, from the bytes that hold them, or
from either of these with something else kept beside it. A source has a few primitive operations
(`BitInput`), and all readers are put together from these. A reader looks bits up before it knows
that they are there, since bits behind the end count as zeros, and it tells the source when an item
begins, which makes a difference only to a source that counts items.
-/

set_option autoImplicit false
set_option relaxedAutoImplicit false

namespace HuffmanCoding

/-- A monad in which bits are read: the number of bits passed, the number of bits left up to the
recorded end and whether there are none, the number that the next `width` bits spell, passing
`width` bits, which have to be there, noting that an item begins, and stopping at a fault that was
found at a position. -/
class BitInput (m : Type → Type) where
  position : m Nat
  remaining : m Nat
  isAtEnd : m Bool
  peek (width : Nat) : m Nat
  skip (width : Nat) : m Unit
  beginItem : m Unit
  fail {α : Type} (fault : StreamFault) (offset : Nat) : m α

namespace Reading

export BitInput (position remaining isAtEnd peek skip beginItem fail)

variable {m : Type → Type} [Monad m] [BitInput m] {α : Type}

/-- Reads a number of `width` bits, which is looked up before it is known that they are there. -/
def bits (width : Nat) : m Nat := do
  let value ← peek width
  skip width
  return value

def bit : m Bool := do
  return (← bits 1) == 1

/-- Reads an item, which has begun whatever comes of it. -/
def item (read : m α) : m α := do
  beginItem
  read

def eachByte : (size : Nat) → m (List UInt8)
  | 0 => return []
  | size + 1 => do
    let byte ← item (bits 8)
    let others ← eachByte size
    return UInt8.ofNat byte :: others

/-- Reads `size` bytes, if at least `needed` bits are left. -/
def bytesWithin (needed size : Nat) : m (List UInt8) := do
  let start ← position
  if (← remaining) < needed then fail (.literalPastEnd size) start
  else eachByte size

def bytes (size : Nat) : m (List UInt8) :=
  bytesWithin (size * 8) size

/-- Reads `count` items one after the other in front of those in `found`, latest first. The reader
of an item is told how many items were read before it. -/
def itemsAfter (read : Nat → m α) : (count : Nat) → (found : List α) → (index : Nat) → m (List α)
  | 0, found, _ => return found.reverse
  | count + 1, found, index => do
    let next ← read index
    itemsAfter read count (next :: found) (index + 1)

def items (count : Nat) (read : Nat → m α) : m (List α) :=
  itemsAfter read count [] 0

/-- What a computation yields that begins at a source. -/
def outcome {σ : Type} (read : EStateM Error σ α) (start : σ) : Except Error α :=
  match read.run start with
  | .ok value _ => .ok value
  | .error error _ => .error error

end Reading

/-- A memory beside a source makes no difference to what is read from the source. -/
instance {m : Type → Type} [Monad m] [BitInput m] {ρ : Type} : BitInput (StateT ρ m) where
  position := StateT.lift BitInput.position
  remaining := StateT.lift BitInput.remaining
  isAtEnd := StateT.lift BitInput.isAtEnd
  peek width := StateT.lift (BitInput.peek width)
  skip width := StateT.lift (BitInput.skip width)
  beginItem := StateT.lift BitInput.beginItem
  fail fault offset := StateT.lift (BitInput.fail fault offset)

end HuffmanCoding
