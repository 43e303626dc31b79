import HuffmanCoding.Registry

/-!
# Codec files

A file holds one stored value of a registered type, which usually is a codec. It starts with a
header of 18 bytes: four magic bytes, the version of the format, the identifier of the type and the
size of the payload. The payload is the stored value without its identifier. What follows the
payload in a source of bytes does not belong to the file.
-/

set_option autoImplicit false
set_option relaxedAutoImplicit false

namespace HuffmanCoding

/-- The first bytes of a file: the mark and the version of the format, the identifier of the type of
the stored value, and the number of bytes behind the header. -/
structure FileHeader where
  magic : List UInt8
  version : UInt16
  identifier : UInt32
  payloadSize : UInt64
  deriving DecidableEq, Repr

namespace FileHeader

def size : Nat := 18

/-- The mark of this kind of file, which spells `HUFC`. -/
def fileMagic : List UInt8 := [0x48, 0x55, 0x46, 0x43]

def fileVersion : UInt16 := 1

def ofPayload (identifier : UInt32) (payloadSize : UInt64) : FileHeader :=
  ⟨fileMagic, fileVersion, identifier, payloadSize⟩

def toBytes (header : FileHeader) : List UInt8 :=
  header.magic ++ Binary.encode header.version ++ Binary.encode header.identifier ++
    Binary.encode header.payloadSize

def fields (magic : List UInt8) : Decoder FileHeader := do
  let version ← Binary.decode
  let identifier ← Binary.decode
  let payloadSize ← Binary.decode
  return ⟨magic, version, identifier, payloadSize⟩

def ofBytes (bytes : List UInt8) : Except Error FileHeader := do
  if bytes.length < size then .error (.serialization .noHeader)
  else
    let magic := bytes.take 4
    if magic ≠ fileMagic then .error (.serialization (.magic magic))
    else
      match (fields magic).run (bytes.drop 4) with
      | .error fault _ => .error (.serialization fault)
      | .ok header _ =>
        if header.version ≠ fileVersion then
          .error (.unsupported (.fileVersion header.version.toNat fileVersion.toNat))
        else .ok header

end FileHeader

/-- A stored value with its header. -/
structure CodecFile where
  header : FileHeader
  payload : List UInt8
  deriving DecidableEq

namespace CodecFile

variable {κ : Type} [TypeKeys κ]

def pack [DecidableEq κ] (registry : Registry κ) (key : κ) (value : TypeKeys.Value key) :
    Except Error CodecFile := do
  let bytes ← registry.serialize key value
  let identifier ← Registry.identifierOf bytes
  let payload := bytes.drop 4
  return ⟨.ofPayload identifier (UInt64.ofNat payload.length), payload⟩

/-- The value in a file, which has to be of the given type. -/
def unpack [DecidableEq κ] (file : CodecFile) (registry : Registry κ) (key : κ) :
    Except Error (TypeKeys.Value key) :=
  registry.deserialize key (Binary.encode file.header.identifier ++ file.payload)

/-- The name of the type of the value in a file, if it is registered. -/
def typeName? (file : CodecFile) (registry : Registry κ) : Option String :=
  (registry.typeWith? file.header.identifier).map (·.typeName)

def toBytes (file : CodecFile) : List UInt8 :=
  file.header.toBytes ++ file.payload

/-- The file at the front of a source of bytes, and the bytes behind it. -/
def read (bytes : List UInt8) : Except Error (CodecFile × List UInt8) := do
  if bytes.length < FileHeader.size then .error (.input .tooShort)
  else
    let header ← FileHeader.ofBytes (bytes.take FileHeader.size)
    let rest := bytes.drop FileHeader.size
    let size := header.payloadSize.toNat
    if rest.length < size then .error (.serialization (.payloadSize rest.length size))
    else return (⟨header, rest.take size⟩, rest.drop size)

end CodecFile

end HuffmanCoding
