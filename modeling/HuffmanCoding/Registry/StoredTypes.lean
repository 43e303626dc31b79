import HuffmanCoding.Binary.Codecs
import HuffmanCoding.Registry

/-!
# The stored types of this library

The types whose values can be stored, under the names by which they are published, and the registry
that fixes their identifiers. The order of the registrations is part of the format, so types are
only ever added to the end of a group.

A host program can register types of its own beside these: the keys of the registry are those of
this library together with any family of keys of the host.
-/

set_option autoImplicit false
set_option relaxedAutoImplicit false

namespace HuffmanCoding

/-- The two types of symbols. -/
inductive SymbolType where
  | character
  | text
  deriving DecidableEq

namespace SymbolType

abbrev Carrier : SymbolType → Type
  | character => Char
  | text => String

instance : (type : SymbolType) → Symbol type.Carrier
  | character => characterSymbol
  | text => textSymbol

instance : (type : SymbolType) → Binary type.Carrier
  | character => inferInstanceAs (Binary Char)
  | text => inferInstanceAs (Binary String)

def name (type : SymbolType) : String :=
  Symbol.typeName type.Carrier

end SymbolType

/-- The stored types of this library. -/
inductive StoredType where
  | codec (symbols : SymbolType)
  | characterCodec
  | textCodec
  | textListCodec
  | anyCodec
  | codeRow (symbols : SymbolType)
  | codeword
  | leaf (symbols : SymbolType)
  | branch
  | tree (symbols : SymbolType)
  | frequencies (symbols : SymbolType)
  | decoder (symbols : SymbolType)
  | windowTable
  | windowSlot
  | codebook (symbols : SymbolType)
  | stream
  | config
  deriving DecidableEq

namespace StoredType

/-- The type that a key stands for. -/
abbrev Value : StoredType → Type
  | codec symbols => Codec symbols.Carrier
  | characterCodec => CharacterCodec
  | textCodec => TextCodec
  | textListCodec => TextListCodec
  | anyCodec => AnyCodec
  | codeRow symbols => CodeRow symbols.Carrier
  | codeword => Codeword
  | leaf symbols => Leaf symbols.Carrier
  | branch => Tree.Branch
  | tree symbols => Tree.Arena symbols.Carrier
  | frequencies symbols => Frequencies symbols.Carrier
  | decoder symbols => WindowDecoder symbols.Carrier
  | windowTable => WindowTable
  | windowSlot => WindowSlot
  | codebook symbols => Codebook symbols.Carrier
  | stream => PackedStream
  | config => TableConfig

/-- How the values of a stored type are written. -/
def format : (type : StoredType) → Format type.Value
  | codec symbols => .ofBinary (Codec symbols.Carrier)
  | characterCodec => .ofBinary CharacterCodec
  | textCodec => .ofBinary TextCodec
  | textListCodec => .ofBinary TextListCodec
  | anyCodec => .ofBinary AnyCodec
  | codeRow symbols => .ofBinary (CodeRow symbols.Carrier)
  | codeword => .ofBinary Codeword
  | leaf symbols => .ofBinary (Leaf symbols.Carrier)
  | branch => .ofBinary Tree.Branch
  | tree symbols => .ofBinary (Tree.Arena symbols.Carrier)
  | frequencies symbols => .ofBinary (Frequencies symbols.Carrier)
  | decoder symbols => .ofBinary (WindowDecoder symbols.Carrier)
  | windowTable => .ofBinary WindowTable
  | windowSlot => .ofBinary WindowSlot
  | codebook symbols => .ofBinary (Codebook symbols.Carrier)
  | stream => .ofBinary PackedStream
  | config => .ofBinary TableConfig

def name : StoredType → String
  | codec symbols => s!"HuffmanCodec<{symbols.name}>"
  | characterCodec => "CharacterCodec"
  | textCodec => "StringCodec"
  | textListCodec => "StringListCodec"
  | anyCodec => "CodecVariant"
  | codeRow symbols => s!"CodedSymbol<{symbols.name}>"
  | codeword => "Code"
  | leaf symbols => s!"Leaf<{symbols.name}>"
  | branch => "InternalNode"
  | tree symbols => s!"Tree<{symbols.name}>"
  | frequencies symbols => s!"FrequencyTable<{symbols.name}>"
  | decoder symbols => s!"FastDecoder<{symbols.name}>"
  | windowTable => "DecodeTable"
  | windowSlot => "DecodeEntry"
  | codebook symbols => s!"CodeTable<{symbols.name}>"
  | stream => "EncodedStream"
  | config => "CodecConfig"

instance : TypeKeys StoredType where
  Value := Value
  typeName := name
  format := format

/-- The five bytes of a codeword: its number, lowest byte first, and its length. -/
def codewordFormat : Format Codeword where
  write := fun codeword ↦ .ok (Binary.encode codeword)
  read := fun bytes ↦
    if bytes.length = 5 then (Binary.ofBytes bytes).mapError Error.serialization
    else .error (.serialization (.codewordSize bytes.length))

/-- The types that are registered with codecs, in the order of their identifiers. -/
def codecTypes : List StoredType :=
  [codec .text, characterCodec, textListCodec, codeRow .character, codeRow .text, codeword,
    leaf .character, leaf .text, branch, tree .character, tree .text, frequencies .character,
    frequencies .text, decoder .character, decoder .text, windowTable, windowSlot, textCodec,
    codebook .character, codebook .text]

/-- The types that are registered with streams, in the order of their identifiers. -/
def streamTypes : List StoredType :=
  [stream, config, anyCodec]

def all : List StoredType :=
  codec .character :: codecTypes ++ streamTypes

variable {Host : Type} [TypeKeys Host]

/-- The registration of a codeword whose stored form has to have exactly five bytes. -/
def strictCodeword : Registration (StoredType ⊕ Host) :=
  ⟨.inl codeword, some codewordFormat⟩

/-- The usual registration of a stored type. Codewords have to have exactly five bytes. -/
def registration (type : StoredType) : Registration (StoredType ⊕ Host) :=
  if type = codeword then strictCodeword else .plain (.inl type)

def codecGroup : String := "huffman"

def streamGroup : String := "huffman-format"

/-- The registry of all types that codecs and streams need. -/
def registry [DecidableEq Host] :
    Except RegistrationFault (Registry (StoredType ⊕ Host)) :=
  Registry.empty.after do
    Registry.addGroup codecGroup (.ofList (codecTypes.map registration))
    Registry.addGroup streamGroup (.ofList (streamTypes.map registration))

end StoredType

end HuffmanCoding
