import HuffmanCoding.Bits.ByteReader
import HuffmanCoding.Bits.ByteWriter
import HuffmanCoding.Bits.Cursor

/-!
# Packed streams

An encoded sequence travels as bytes together with two numbers: how many bits count, and how many
items they encode. Reading such a stream yields that number of items and has to end at the recorded
end, so a stream whose numbers were changed is noticed.
-/

set_option autoImplicit false
set_option relaxedAutoImplicit false

namespace HuffmanCoding

/-- The output of an encoder: bytes, how many of their bits count, and how many items these encode.
-/
structure PackedStream where
  bytes : List UInt8
  bitLength : Nat
  symbolCount : Nat
  deriving DecidableEq, Repr

/-- Fills the last byte up with zeros, and packs what was written as `symbolCount` symbols. -/
def ByteWriter.stream (writer : ByteWriter) (symbolCount : Nat) : PackedStream where
  bytes := writer.bytes ++
    if writer.count = 0 then [] else [UInt8.ofNat (writer.buffer <<< (8 - writer.count))]
  bitLength := writer.written
  symbolCount := symbolCount

namespace PackedStream

def empty : PackedStream := ⟨[], 0, 0⟩

/-- The stream of some bits, which encode `symbolCount` items. -/
def ofBits (bits : Bits) (symbolCount : Nat) : PackedStream :=
  ⟨Bits.toBytes bits, bits.length, symbolCount⟩

/-- Writes items one after the other into a stream. -/
def encodeItems {α : Type} (write : α → Except Error Bits) (items : List α) :
    Except Error PackedStream := do
  let pieces ← items.mapM write
  return ofBits pieces.flatten items.length

section Reading

variable {m : Type → Type} [Monad m] [BitInput m] {α : Type}

/-- Reads the item of a stream of `count` items that comes after `index` others. None begins at the
end of the stream. -/
def readItem (read : m α) (count index : Nat) : m α := do
  let place ← Reading.position
  if ← Reading.isAtEnd then Reading.fail (.endedEarly index count) place
  else Reading.item read

/-- Reads `count` items and then the end of the stream. -/
def readItems (read : m α) (count : Nat) : m (List α) := do
  let items ← Reading.items count (readItem read count)
  let place ← Reading.position
  let left ← Reading.remaining
  if ← Reading.isAtEnd then return items
  else Reading.fail (.bitsLeft left count) place

end Reading

/-- Reads the recorded number of items from a stream. -/
def decodeItems {α : Type} (read : Reading α) (stream : PackedStream) : Except Error (List α) := do
  Reading.outcome (readItems read stream.symbolCount)
    (← BitCursor.ofBytes stream.bytes stream.bitLength)

/-- Reads the recorded number of items from a stream with a reader that begins with a memory. -/
def decodeItemsWithMemory {ρ α : Type} (read : StateT ρ Reading α) (memory : ρ)
    (stream : PackedStream) : Except Error (List α) := do
  Reading.outcome ((readItems read stream.symbolCount).run' memory)
    (← BitCursor.ofBytes stream.bytes stream.bitLength)

/-- The beginning of a stream, whose bytes have to hold as many bits as are recorded. -/
def reader (stream : PackedStream) : Except Error ByteReader :=
  if h : stream.bitLength ≤ stream.bytes.length * 8 then
    .ok ⟨stream.bytes, stream.bitLength, 0, h, Nat.zero_le _⟩
  else .error (.malformed (.recordedLength stream.bitLength (stream.bytes.length * 8)) 0)

/-- Reads the recorded number of items from the bytes of a stream. -/
def itemsFromBytes {α : Type} (read : ByteReading α) (stream : PackedStream) :
    Except Error (List α) := do
  Reading.outcome (readItems read stream.symbolCount) (← stream.reader)

end PackedStream

end HuffmanCoding
