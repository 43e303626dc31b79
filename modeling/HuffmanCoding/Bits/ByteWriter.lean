import HuffmanCoding.Error

/-!
# Writing into bytes

Where bits are written into bytes, the bits of the byte that is not complete yet wait in a buffer, a
word of 64 digits. A field is shifted into the buffer from below, and then complete bytes are taken
off its upper end (`ByteWriter.put`).
-/

set_option autoImplicit false
set_option relaxedAutoImplicit false

namespace HuffmanCoding

/-- Complete bytes, the number that the bits in the buffer spell, and how many these are. -/
structure ByteWriter where
  bytes : List UInt8
  buffer : Nat
  count : Nat
  written : Nat
  count_lt : count < 8
  buffer_lt : buffer < 1 <<< count
  written_eq : written = bytes.length * 8 + count

/-- A computation that writes bits into bytes. -/
abbrev ByteWriting (α : Type) := EStateM Error ByteWriter α

namespace ByteWriter

def empty : ByteWriter where
  bytes := []
  buffer := 0
  count := 0
  written := 0
  count_lt := by decide
  buffer_lt := by decide
  written_eq := rfl

/-- The complete bytes of a buffer with `count` bits, from its upper end downwards. -/
def completeBytes (count buffer : Nat) : List UInt8 :=
  if count < 8 then []
  else UInt8.ofNat (buffer >>> (count - 8)) :: completeBytes (count - 8) buffer
termination_by count

theorem length_completeBytes (count buffer : Nat) :
    (completeBytes count buffer).length = count / 8 := by
  fun_induction completeBytes count buffer with
  | case1 count hcount => exact (Nat.div_eq_of_lt hcount).symm
  | case2 count hcount ih =>
    rw [List.length_cons, ih]
    omega

/-- Writes the lowest `width` digits of a number, the highest of them first. -/
def put (writer : ByteWriter) (width value : Nat) : ByteWriter :=
  let buffer := (writer.buffer <<< width) % UInt64.size ||| value % (1 <<< width)
  let count := writer.count + width
  { bytes := writer.bytes ++ completeBytes count buffer
    buffer := buffer % (1 <<< (count % 8))
    count := count % 8
    written := writer.written + width
    count_lt := Nat.mod_lt _ (by decide)
    buffer_lt := Nat.mod_lt _ (Nat.one_shiftLeft _ ▸ Nat.two_pow_pos _)
    written_eq := by
      rw [List.length_append, length_completeBytes, writer.written_eq]
      omega }

end ByteWriter

namespace ByteWriting

def put (width value : Nat) : ByteWriting Unit :=
  modify (·.put width value)

def number (value : Nat) : ByteWriting Unit :=
  if value < 128 then put 8 value
  else do
    put 8 (value % 128 + 128)
    number (value / 128)
termination_by value

def bytes : List UInt8 → ByteWriting Unit
  | [] => return
  | byte :: rest => do
    put 8 byte.toNat
    bytes rest

end ByteWriting

end HuffmanCoding
