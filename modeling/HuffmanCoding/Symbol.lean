import HuffmanCoding.Bits.ByteWriter
import HuffmanCoding.Bits.Cursor
import HuffmanCoding.Bits.Number

/-!
# Symbols and tokens

A symbol is what a codec takes as one unit. It has an order, which breaks ties between equally
frequent symbols, and a literal form, in which it is written where it has no codeword. There are two
types of symbols, characters and texts.

A token is what a codeword stands for: a symbol, or the escape that announces a literal.
-/

set_option autoImplicit false
set_option relaxedAutoImplicit false

namespace HuffmanCoding

/-- A type whose values can be given codewords. -/
class Symbol (S : Type) extends Ord S, BEq S, Hashable S, Std.TransOrd S, Std.LawfulEqOrd S,
    LawfulBEq S where
  typeName : String
  quoted : S → String
  rawBits : S → Nat
  literal : S → Bits
  readLiteral : Reading S

/-- The number of bits in the literal of a character, enough for each of them. -/
def characterBits : Nat := 21

/-- The literal of a text: the number of its bytes, then the bytes. -/
def textLiteral (text : String) : Bits :=
  Bits.ofNumber (Utf8.encode text).length ++ Bits.ofBytes (Utf8.encode text)

namespace Reading

variable {m : Type → Type} [Monad m] [BitInput m]

def character : m Char := do
  let start ← position
  let value ← bits characterBits
  if h : value.isValidChar then return Char.ofNatAux value h
  else fail (.noSuchCharacter value) start

/-- Reads a text as its bytes behind their number. -/
def textWith {ι : Type} (size : m ι) (bytes : ι → m (List UInt8)) : m String := do
  let start ← position
  match Utf8.decode (← bytes (← size)) with
  | .ok text => return text
  | .error fault => fail (.literalNotText fault) start

def text : m String :=
  textWith number bytes

end Reading

namespace ByteWriting

def character (letter : Char) : ByteWriting Unit :=
  put characterBits letter.toNat

def text (content : String) : ByteWriting Unit := do
  number (Utf8.encode content).length
  bytes (Utf8.encode content)

end ByteWriting

instance characterSymbol : Symbol Char where
  toHashable := instHashableChar
  typeName := "char"
  quoted := Quoted.char
  rawBits := fun _ ↦ 32
  literal := fun character ↦ Bits.ofNat characterBits character.toNat
  readLiteral := Reading.character

instance textSymbol : Symbol String where
  typeName := "String"
  quoted := Quoted.text
  rawBits := fun text ↦ text.utf8ByteSize * 8
  literal := textLiteral
  readLiteral := Reading.text

/-- What a codeword stands for. -/
inductive Token (S : Type) where
  | escape
  | symbol (symbol : S)
  deriving DecidableEq

namespace Token

variable {S : Type}

/-- The symbol that a token stands for, if it is not the escape. -/
def symbol? : Token S → Option S
  | escape => none
  | symbol content => some content

def isEscape : Token S → Bool
  | escape => true
  | symbol _ => false

/-- The escape comes before every symbol. -/
def precedes [Ord S] : Token S → Token S → Bool
  | escape, _ => true
  | symbol _, escape => false
  | symbol first, symbol second => (compare first second).isLE

end Token

end HuffmanCoding
