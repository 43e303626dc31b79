import HuffmanCoding.Codec.Lifecycle
import HuffmanCoding.Frequencies.Corpus

/-!
# Codecs for characters

A codec for the characters of texts. A character without a codeword is written as its number.
-/

set_option autoImplicit false
set_option relaxedAutoImplicit false

namespace HuffmanCoding

/-- A codec that takes a character as one symbol. -/
structure CharacterCodec where
  codec : Codec Char

namespace CharacterCodec

/-- A codec that has not seen any character and learns. -/
def trainable (config : TableConfig) : CharacterCodec :=
  ⟨.trainable config⟩

/-- A codec with the tables of given counts, which does not learn. -/
def ofFrequencies (frequencies : Frequencies Char) (config : TableConfig) :
    Logged CharacterCodec := do
  return ⟨← Codec.ofFrequencies frequencies config⟩

def onCodec {α : Type} (update : Update (Codec Char) α) : Update CharacterCodec α :=
  update.onPart CharacterCodec.codec fun _ codec ↦ ⟨codec⟩

def trainText (text : String) : Update CharacterCodec Unit :=
  onCodec (Codec.trainAll text.toList)

/-- Counts the characters of a corpus, all of which has to be a text. -/
def trainCorpus (corpus : List UInt8) : Update CharacterCodec Unit := do
  let frequencies ← Update.ofExcept (Frequencies.empty.addCharacters corpus)
  onCodec (Codec.merge frequencies)

def build : Update CharacterCodec Unit :=
  onCodec Codec.build

def encode (codec : CharacterCodec) (characters : List Char) : Except Error PackedStream :=
  codec.codec.encode LiteralWriter.usual characters

def encodeCounted (codec : CharacterCodec) (characters : List Char) :
    Except Error (PackedStream × Statistics) :=
  Statistics.withKind .character (codec.codec.encodeCounted LiteralWriter.usual characters)

def encodeIntoBytes (codec : CharacterCodec) (characters : List Char) :
    Except Error (PackedStream × Statistics) :=
  Statistics.withKind .character (codec.codec.encodeIntoBytes ByteWriting.character characters)

def decode (codec : CharacterCodec) (stream : PackedStream) : Except Error (List Char) :=
  codec.codec.decode Symbol.readLiteral stream

def decodeFromBytes (codec : CharacterCodec) (stream : PackedStream) : Except Error (List Char) :=
  codec.codec.decodeFromBytes Reading.character stream

def encodeText (codec : CharacterCodec) (text : String) : Except Error PackedStream :=
  codec.encode text.toList

def decodeText (codec : CharacterCodec) (stream : PackedStream) : Except Error String := do
  return String.ofList (← codec.decode stream)

instance : SequenceCodec CharacterCodec Char where
  kind := fun _ ↦ .character
  train := fun character ↦ onCodec (Codec.train character)
  encode := encode
  decode := decode

def describe (codec : CharacterCodec) : String :=
  SpelledOut.record "CharacterCodec" [("codec", codec.codec.describe)]

end CharacterCodec

end HuffmanCoding
