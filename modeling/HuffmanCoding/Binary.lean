import HuffmanCoding.Error
import HuffmanCoding.Weight

/-!
# The binary format

Values are stored one field after the other. Numbers have a fixed size and start with their lowest
byte; a text, a list or an optional value starts with a count or a mark; an alternative starts with
its number. A stored value does not say of which type it is. Bytes behind a value are not looked at.

For each type `Binary.encode` writes a value and `Binary.decode` reads it from the front of the
bytes.
-/

set_option autoImplicit false
set_option relaxedAutoImplicit false

namespace HuffmanCoding

/-- A computation that reads stored values from the front of the bytes that are left. -/
abbrev Decoder (α : Type) := EStateM FormatFault (List UInt8) α

/-- A type whose values can be stored. -/
class Binary (α : Type) where
  encode : α → List UInt8
  decode : Decoder α

namespace Binary

/-! ### Numbers -/

/-- The `size` lowest bytes of a number, lowest first. -/
def word : (size value : Nat) → List UInt8
  | 0, _ => []
  | size + 1, value => UInt8.ofNat value :: word size (value / 256)

def readByte : Decoder UInt8 := do
  match ← get with
  | [] => throw .endOfInput
  | byte :: rest =>
    set rest
    return byte

/-- Reads a number of `size` bytes. -/
def readWord : (size : Nat) → Decoder Nat
  | 0 => return 0
  | size + 1 => do
    let low ← readByte
    let high ← readWord size
    return low.toNat + 256 * high

instance : Binary UInt8 where
  encode := fun value ↦ [value]
  decode := readByte

instance : Binary UInt16 where
  encode := fun value ↦ word 2 value.toNat
  decode := do return UInt16.ofNat (← readWord 2)

instance : Binary UInt32 where
  encode := fun value ↦ word 4 value.toNat
  decode := do return UInt32.ofNat (← readWord 4)

instance : Binary UInt64 where
  encode := fun value ↦ word 8 value.toNat
  decode := do return UInt64.ofNat (← readWord 8)

instance : Binary Weight where
  encode := fun weight ↦ word 8 weight.toNat
  decode := do return Weight.ofNat (← readWord 8)

/-! ### Alternatives -/

instance : Binary Bool where
  encode := fun value ↦ [if value then 1 else 0]
  decode := do
    match ← readByte with
    | 0 => return false
    | 1 => return true
    | found => throw (.truthValue found.toNat)

instance {α : Type} [Binary α] : Binary (Option α) where
  encode
    | none => [0]
    | some value => 1 :: encode value
  decode := do
    match ← readByte with
    | 0 => return none
    | 1 => return some (← decode)
    | found => throw (.presenceMark found.toNat)

/-- Reads the number of an alternative and goes on with its fields. -/
def readAlternative {α : Type} (alternatives : List (Decoder α)) : Decoder α := do
  let number ← readWord 4
  match alternatives[number]? with
  | some fields => fields
  | none => throw (.alternative number alternatives.length)

/-! ### Texts -/

def readBytes (size : Nat) : Decoder (List UInt8) := do
  let bytes ← get
  let taken := bytes.take size
  if taken.length < size then throw .endOfText
  else
    set (bytes.drop size)
    return taken

instance : Binary Char where
  encode := String.utf8EncodeChar
  decode := do
    let bytes ← get
    if bytes.isEmpty then throw .endOfInput
    else
      match Utf8.firstChar? bytes with
      | some (character, rest) =>
        set rest
        return character
      | none => throw .character

instance : Binary String where
  encode := fun text ↦ word 8 (Utf8.encode text).length ++ Utf8.encode text
  decode := do
    let size ← readWord 8
    match Utf8.decode (← readBytes size) with
    | .ok text => return text
    | .error fault => throw (.text fault)

/-! ### Sequences -/

/-- Reads `count` values and puts them behind those in `found`, latest first. -/
def readManyAfter {α : Type} (read : Decoder α) : (count : Nat) → (found : List α) →
    Decoder (List α)
  | 0, found => return found.reverse
  | count + 1, found => do
    let next ← read
    readManyAfter read count (next :: found)

instance {α : Type} [Binary α] : Binary (List α) where
  encode := fun values ↦ word 8 values.length ++ values.flatMap encode
  decode := do
    let count ← readWord 8
    readManyAfter decode count []

instance {α β : Type} [Binary α] [Binary β] : Binary (α × β) where
  encode := fun (first, second) ↦ encode first ++ encode second
  decode := do
    let first ← decode
    let second ← decode
    return (first, second)

def ofBytes {α : Type} [Binary α] (bytes : List UInt8) : Except FormatFault α :=
  match (decode : Decoder α).run bytes with
  | .ok value _ => .ok value
  | .error fault _ => .error fault

/-- Goes on with a value that a check after reading accepts. -/
def accept {α : Type} (checked : Except Error α) : Decoder α :=
  match checked with
  | .ok value => pure value
  | .error error => throw (.refused error.message)

end Binary

end HuffmanCoding
