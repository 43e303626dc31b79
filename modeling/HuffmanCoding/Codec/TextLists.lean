import HuffmanCoding.Codec.Texts

/-!
# Codecs for lists of texts

A list is written as the number of its texts and the texts themselves. A claimed number of texts is
checked against the bits that are left before anything is read, since each text takes at least one
bit.
-/

set_option autoImplicit false
set_option relaxedAutoImplicit false

namespace HuffmanCoding

/-- A codec that takes a list of texts as one symbol. -/
structure TextListCodec where
  texts : TextCodec

namespace TextListCodec

def trainable (config : TextConfig) : Except Error TextListCodec := do
  return ⟨← TextCodec.trainable config⟩

def onTexts {α : Type} (update : Update TextCodec α) : Update TextListCodec α :=
  update.onPart TextListCodec.texts fun _ texts ↦ ⟨texts⟩

def train (list : List String) : Update TextListCodec Unit :=
  onTexts (TextCodec.trainAll list)

def build : Update TextListCodec Unit :=
  onTexts TextCodec.build

def encodeList (codec : TextListCodec) (list : List String) : Except Error Bits := do
  let pieces ← list.mapM codec.texts.encodeSymbol
  return Bits.ofNumber list.length ++ pieces.flatMap (·.bits)

/-- Writes lists, for which the tables have to be there even if there is no list. -/
def encode (codec : TextListCodec) (lists : List (List String)) : Except Error PackedStream := do
  let _ ← codec.texts.texts.tables
  PackedStream.encodeItems codec.encodeList lists

def readList {m : Type → Type} [Monad m] [BitInput m] (codec : TextListCodec)
    (tables : Tables String) : m (List String) :=
  Reading.counted .tooManyTexts fun count ↦
    Reading.items count fun _ ↦ Reading.item (codec.texts.readSymbol tables)

def decode (codec : TextListCodec) (stream : PackedStream) :
    Except Error (List (List String)) := do
  let tables ← codec.texts.texts.tables
  stream.decodeItems (codec.readList tables)

def decodeFromBytes (codec : TextListCodec) (stream : PackedStream) :
    Except Error (List (List String)) := do
  let tables ← codec.texts.texts.tables
  stream.itemsFromBytes (codec.readList tables)

instance : SequenceCodec TextListCodec (List String) where
  kind := fun _ ↦ .textList
  train := train
  encode := encode
  decode := decode

def describe (codec : TextListCodec) : String :=
  SpelledOut.record "StringListCodec" [("strings", codec.texts.describe)]

end TextListCodec

end HuffmanCoding
