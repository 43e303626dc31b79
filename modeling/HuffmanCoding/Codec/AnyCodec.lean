import HuffmanCoding.Codec.Characters
import HuffmanCoding.Codec.TextLists

/-!
# Codecs of any kind

Where the kind of codec is a choice made at run time, the codecs and the sequences of all kinds are
one type each. A codec takes only sequences of its own kind.
-/

set_option autoImplicit false
set_option relaxedAutoImplicit false

namespace HuffmanCoding

/-- A sequence of symbols of some kind. -/
inductive AnySequence where
  | characters (symbols : List Char)
  | texts (symbols : List String)
  | textLists (symbols : List (List String))
  deriving DecidableEq

namespace AnySequence

def kind : AnySequence → CodecKind
  | characters _ => .character
  | texts _ => .text
  | textLists _ => .textList

def length : AnySequence → Nat
  | characters symbols => symbols.length
  | texts symbols => symbols.length
  | textLists symbols => symbols.length

end AnySequence

/-- A codec of some kind. -/
inductive AnyCodec where
  | characters (codec : CharacterCodec)
  | texts (codec : TextCodec)
  | textLists (codec : TextListCodec)

namespace AnyCodec

/-- A codec of a given kind that has not seen any symbol and learns. One for characters looks only
at the part of the configuration that concerns characters. -/
def trainable (kind : CodecKind) (config : TextConfig) : Except Error AnyCodec :=
  match kind with
  | .character => do
    config.characters.check
    return characters (.trainable config.characters)
  | .text => do
    return texts (← TextCodec.trainable config)
  | .textList => do
    return textLists (← TextListCodec.trainable config)

/-- A codec for characters that has not seen any and learns. Its configuration is looked at only
when its tables are built. -/
def ofCharacters (config : TableConfig) : AnyCodec :=
  characters (.trainable config)

def kind : AnyCodec → CodecKind
  | characters _ => .character
  | texts _ => .text
  | textLists _ => .textList

/-- Runs an update that turns on the codec inside. -/
def on {C α : Type} (wrap : C → AnyCodec) (codec : C) (update : Update C α) :
    Update AnyCodec α :=
  update.onPart (fun _ ↦ codec) fun _ codec ↦ wrap codec

def wrongKind (codec : AnyCodec) (sequence : AnySequence) : Error :=
  .unsupported (.symbolsOfKind codec.kind sequence.kind)

def train (sequence : AnySequence) : Update AnyCodec Unit := do
  let current ← Update.codec
  match current, sequence with
  | characters codec, .characters symbols => on characters codec (SequenceCodec.trainAll symbols)
  | texts codec, .texts symbols => on texts codec (SequenceCodec.trainAll symbols)
  | textLists codec, .textLists symbols => on textLists codec (SequenceCodec.trainAll symbols)
  | _, _ => throw (current.wrongKind sequence)

def build : Update AnyCodec Unit := do
  match ← Update.codec with
  | characters codec => on characters codec CharacterCodec.build
  | texts codec => on texts codec TextCodec.build
  | textLists codec => on textLists codec TextListCodec.build

def encode (codec : AnyCodec) (sequence : AnySequence) : Except Error PackedStream :=
  match codec, sequence with
  | characters codec, .characters symbols => codec.encode symbols
  | texts codec, .texts symbols => codec.encode symbols
  | textLists codec, .textLists symbols => codec.encode symbols
  | _, _ => .error (codec.wrongKind sequence)

def decode (codec : AnyCodec) (stream : PackedStream) : Except Error AnySequence :=
  match codec with
  | characters codec => do return .characters (← codec.decode stream)
  | texts codec => do return .texts (← codec.decode stream)
  | textLists codec => do return .textLists (← codec.decode stream)

/-- Tells whether decoding gives a sequence back after encoding. -/
def roundTrips (codec : AnyCodec) (sequence : AnySequence) : Except Error Bool := do
  let stream ← codec.encode sequence
  let decoded ← codec.decode stream
  return decoded = sequence

def describe : AnyCodec → String
  | characters codec => SpelledOut.alternative "Character" codec.describe
  | texts codec => SpelledOut.alternative "String" codec.describe
  | textLists codec => SpelledOut.alternative "StringList" codec.describe

end AnyCodec

end HuffmanCoding
