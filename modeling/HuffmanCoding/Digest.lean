import HuffmanCoding.Binary
import HuffmanCoding.Text.Hexadecimal

/-!
# Digests

A digest is a number of 64 binary digits that stands for a stored value where the value itself is
too large to be shown. For each byte the digest so far is combined with the byte and multiplied by a
prime.
-/

set_option autoImplicit false
set_option relaxedAutoImplicit false

namespace HuffmanCoding.Digest

/-- The digest of no byte. -/
def start : UInt64 := 0xcbf29ce484222325

/-- The factor for each byte. -/
def factor : UInt64 := 0x100000001b3

def ofBytes (bytes : List UInt8) : UInt64 :=
  bytes.foldl (fun digest byte ↦ (digest ^^^ byte.toUInt64) * factor) start

/-- The sixteen hexadecimal digits of a number of 64 binary digits, highest first. -/
def digits (value : UInt64) : String :=
  Hexadecimal.encode (Binary.word 8 value.toNat).reverse

/-- The digest of a stored value, in hexadecimal digits. -/
def ofValue {α : Type} [Binary α] (value : α) : String :=
  digits (ofBytes (Binary.encode value))

end HuffmanCoding.Digest
