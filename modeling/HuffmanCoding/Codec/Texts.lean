import HuffmanCoding.Codec.Lifecycle

/-!
# Codecs for texts

A codec for sequences of texts has two tables. Frequent texts have codewords of their own. Any other
text is written as the escape, the number of its characters and the characters themselves, for which
there is a second table with an escape of its own. Where training saw no character, there is no
second table, and such a text is written as its literal.

A claimed number of characters is checked against the bits that are left before anything is read,
since each character takes at least one bit.
-/

set_option autoImplicit false
set_option relaxedAutoImplicit false

namespace HuffmanCoding

/-- A codec that takes a text as one symbol. Texts that occur `cutoff` times or more have codewords
of their own, and the characters spell other texts. -/
structure TextCodec where
  cutoff : Weight
  texts : Codec String
  characters : Codec Char

/-- The texts that occur often enough for a codeword of their own. If there are none, all are kept,
which is reported. -/
def Frequencies.keepFrequent (frequencies : Frequencies String) (cutoff : Weight) :
    Logged (Frequencies String) :=
  if cutoff ≤ 1 then return frequencies
  else
    let kept := frequencies.keepAtLeast cutoff
    if kept.isEmpty then do
      Logged.warn (.allTextsRare cutoff.toNat frequencies.size)
      return frequencies
    else return kept

namespace TextCodec

def trainable (config : TextConfig) : Except Error TextCodec := do
  config.check
  return ⟨config.cutoff, .trainable config.texts, .trainable config.characters⟩

/-- A codec with the tables of given counts, which does not learn. Without counts for characters it
has no table for them, and the codec for characters is one that could still learn. -/
def ofFrequencies (texts : Frequencies String) (characters : Frequencies Char)
    (config : TextConfig) : Logged TextCodec := do
  Logged.ofExcept config.check
  let kept ← texts.keepFrequent config.cutoff
  let textCodec ← Codec.ofFrequencies kept config.texts
  let characterCodec ←
    if characters.isEmpty then pure (Codec.trainable config.characters)
    else Codec.ofFrequencies characters config.characters
  return ⟨config.cutoff, textCodec, characterCodec⟩

def onTexts {α : Type} (update : Update (Codec String) α) : Update TextCodec α :=
  update.onPart TextCodec.texts fun codec texts ↦ { codec with texts }

def onCharacters {α : Type} (update : Update (Codec Char) α) : Update TextCodec α :=
  update.onPart TextCodec.characters fun codec characters ↦ { codec with characters }

def isBuilt (codec : TextCodec) : Bool :=
  codec.texts.isBuilt

/-! ### Training -/

def train (text : String) : Update TextCodec Unit := do
  onTexts (Codec.train text)
  onCharacters (Codec.trainAll text.toList)

/-- Counts texts and their characters, up to the first one that is refused. -/
def trainAll (texts : List String) : Update TextCodec Unit :=
  texts.forM train

/-- Derives the tables. Texts that are too rare lose their codewords first; this is not taken back
if there are no tables then. -/
def build : Update TextCodec Unit := do
  let codec ← Update.codec
  if codec.texts.isBuilt then throw .alreadyBuilt
  else
    let counted := codec.texts.frequencies
    let kept ← Update.hearing (counted.keepFrequent codec.cutoff)
    if kept.size < counted.size then
      let _ ← onTexts (Codec.keepAtLeast codec.cutoff)
    onTexts Codec.build
    if !codec.characters.frequencies.isEmpty then onCharacters Codec.build

/-! ### Encoding -/

/-- Writes the characters of a text that has no codeword, after their number, or its literal if
there is no table of characters. -/
def spell (codec : TextCodec) : LiteralWriter String := fun text ↦
  match codec.characters.stage.tables? with
  | none => LiteralWriter.usual text
  | some tables => do
    let pieces ← text.toList.mapM (tables.book.encodeSymbol LiteralWriter.usual)
    return Bits.ofNumber text.length ++ pieces.flatMap (·.bits)

def encodeSymbol (codec : TextCodec) (text : String) : Except Error EncodedSymbol := do
  (← codec.texts.tables).book.encodeSymbol codec.spell text

def encode (codec : TextCodec) (texts : List String) : Except Error PackedStream :=
  codec.texts.encode codec.spell texts

def encodeCounted (codec : TextCodec) (texts : List String) :
    Except Error (PackedStream × Statistics) :=
  Statistics.withKind .text (codec.texts.encodeCounted codec.spell texts)

/-- Writes the characters of a text, or its literal, into bytes. -/
def writeSpelled (codec : TextCodec) (text : String) : ByteWriting Unit :=
  match codec.characters.stage.tables? with
  | none => .text text
  | some tables => do
    ByteWriting.number text.length
    let write := tables.book.writeSymbol ByteWriting.character
    ByteWriting.each write (fun _ _ _ ↦ ()) () text.toList

def encodeIntoBytes (codec : TextCodec) (texts : List String) :
    Except Error (PackedStream × Statistics) :=
  Statistics.withKind .text (codec.texts.encodeIntoBytes codec.writeSpelled texts)

/-! ### Decoding -/

section Reading

variable {m : Type → Type} [Monad m] [BitInput m]

/-- Reads what `spell` wrote. -/
def readSpelled (codec : TextCodec) : m String :=
  match codec.characters.stage.tables? with
  | none => Reading.text
  | some tables => Reading.counted .tooManyCharacters fun count ↦ do
    let read := Reading.item (tables.decoder.readSymbol Reading.character)
    return String.ofList (← Reading.items count fun _ ↦ read)

def readSymbol (codec : TextCodec) (tables : Tables String) : m String :=
  tables.decoder.readSymbol codec.readSpelled

end Reading

def decode (codec : TextCodec) (stream : PackedStream) : Except Error (List String) :=
  codec.texts.decode codec.readSpelled stream

def decodeFromBytes (codec : TextCodec) (stream : PackedStream) : Except Error (List String) :=
  codec.texts.decodeFromBytes codec.readSpelled stream

instance : SequenceCodec TextCodec String where
  kind := fun _ ↦ .text
  train := train
  encode := encode
  decode := decode

def describe (codec : TextCodec) : String :=
  SpelledOut.record "StringCodec"
    [("min_string_frequency", toString codec.cutoff), ("strings", codec.texts.describe),
      ("characters", codec.characters.describe)]

end TextCodec

end HuffmanCoding
