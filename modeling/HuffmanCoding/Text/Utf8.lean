/-!
# UTF-8

Texts as bytes and back. `encode` concatenates the encodings of the characters. `decode` accepts
exactly the well-formed byte sequences; for any other it names the first fault, which is either a
sequence that no continuation can mend (`Fault.invalid`) or a character that the end of the input
cuts short (`Fault.incomplete`).
-/

set_option autoImplicit false
set_option relaxedAutoImplicit false

namespace HuffmanCoding.Utf8

/-- Why a byte sequence is not a text. -/
inductive Fault where
  | invalid (length validUpTo : Nat)
  | incomplete (validUpTo : Nat)
  deriving DecidableEq, Repr

def Fault.message : Fault → String
  | .invalid length validUpTo =>
    s!"invalid utf-8 sequence of {length} bytes from index {validUpTo}"
  | .incomplete validUpTo => s!"incomplete utf-8 byte sequence from index {validUpTo}"

/-- The range that one byte of a character has to lie in, ends included. -/
abbrev ByteRange := UInt8 × UInt8

/-- The range of a byte that continues a character in the general case. -/
def tail : ByteRange := (0x80, 0xBF)

/-- The ranges of the bytes that follow a leading byte, or `none` if no character starts so. The
first of them is narrower where it would spell a character in more bytes than needed, a
surrogate, or a number above the last character. -/
def followers (lead : UInt8) : Option (List ByteRange) :=
  if lead ≤ 0x7F then some []
  else if lead < 0xC2 then none
  else if lead ≤ 0xDF then some [tail]
  else if lead = 0xE0 then some [(0xA0, 0xBF), tail]
  else if lead = 0xED then some [(0x80, 0x9F), tail]
  else if lead ≤ 0xEF then some [tail, tail]
  else if lead = 0xF0 then some [(0x90, 0xBF), tail, tail]
  else if lead ≤ 0xF3 then some [tail, tail, tail]
  else if lead = 0xF4 then some [(0x80, 0x8F), tail, tail]
  else none

/-- The first fault from `index` on, where the current character began at `start` and still needs
bytes in the ranges `expected`. -/
def firstFault (index start : Nat) (expected : List ByteRange) : List UInt8 → Option Fault
  | [] => if expected.isEmpty then none else some (.incomplete start)
  | byte :: rest =>
    match expected with
    | (low, high) :: expected =>
      if low ≤ byte ∧ byte ≤ high then firstFault (index + 1) start expected rest
      else some (.invalid (index - start) start)
    | [] =>
      match followers byte with
      | some expected => firstFault (index + 1) index expected rest
      | none => some (.invalid 1 index)

def encode (text : String) : List UInt8 :=
  text.toList.flatMap String.utf8EncodeChar

/-- The text that the bytes spell, or the first fault in them. -/
def decode (bytes : List UInt8) : Except Fault String :=
  match String.fromUTF8? bytes.toByteArray with
  | some text => .ok text
  | none => .error ((firstFault 0 0 [] bytes).getD (.incomplete 0))

/-- The character at the front of the bytes and the bytes behind it, if one stands there. -/
def firstChar? (bytes : List UInt8) : Option (Char × List UInt8) :=
  ((bytes.take 4).toByteArray.utf8DecodeChar? 0).map fun character ↦
    (character, bytes.drop character.utf8Size)

/-- The lines of a byte sequence whose first line goes on from `line`, last byte first. A line ends
before a line feed, and a carriage return before that line feed belongs to the end of the line. What
follows the last line feed is a line unless it is empty. -/
def splitLines (line : List UInt8) : List UInt8 → List (List UInt8)
  | [] => if line.isEmpty then [] else [line.reverse]
  | byte :: rest =>
    if byte = 0x0A then
      let ended := match line with
        | 0x0D :: line => line
        | line => line
      ended.reverse :: splitLines [] rest
    else splitLines (byte :: line) rest

/-- The lines of a byte sequence, without their ends. -/
def lines (bytes : List UInt8) : List (List UInt8) :=
  splitLines [] bytes

end HuffmanCoding.Utf8
