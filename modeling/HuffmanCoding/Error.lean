import HuffmanCoding.CodecKind
import HuffmanCoding.Codeword
import HuffmanCoding.Text.Quoted
import HuffmanCoding.Text.Utf8

/-!
# Errors

Each way in which an operation can fail is a value that names its cause. `Error.message` is the one
place where causes are put into words, `Error.category` sorts them for counting, and
`Error.isRecoverable` tells those that another input or another configuration avoids.

Causes that only a caller can know, such as a fault in a literal that the caller reads itself, are
given as a text (`described`).
-/

set_option autoImplicit false
set_option relaxedAutoImplicit false

namespace HuffmanCoding

/-- What is wrong with an encoded stream. -/
inductive StreamFault where
  | recordedLength (claimed available : Nat)
  | fieldPastEnd (width : Nat)
  | numberTooLarge
  | literalPastEnd (size : Nat)
  | noSuchCharacter (value : Nat)
  | literalNotText (fault : Utf8.Fault)
  | noCodeword
  | codewordPastEnd
  | noSuchToken
  | endedEarly (decoded recorded : Nat)
  | bitsLeft (remaining recorded : Nat)
  | tooManyCharacters (claimed : Nat)
  | tooManyTexts (claimed : Nat)
  | described (text : String)
  deriving DecidableEq, Repr

/-- What is wrong with a configuration. -/
inductive ConfigFault where
  | lengthBound (lowest highest value : Nat)
  | windowWidth (lowest highest value : Nat)
  | weightlessEscape
  | zeroCutoff
  | cutoffWithoutEscape
  | codewordOutsideWindow (length width : Nat)
  | described (text : String)
  deriving DecidableEq, Repr

/-- What an object does not offer. -/
inductive MissingFeature where
  | trainingStatic (symbols : String)
  | training (kind : CodecKind)
  | symbolsOfKind (codec symbols : CodecKind)
  | fileVersion (found supported : Nat)
  | described (text : String)
  deriving DecidableEq, Repr

/-- What is wrong with a registration or with the use of a registered type. -/
inductive RegistrationFault where
  | duplicateGroup (group : String)
  | duplicateType (typeName group : String)
  | groupFull (group : String) (capacity : Nat)
  | identifierTaken (identifier : Nat) (typeName owner : String)
  | identifierMoved (typeName : String) (published : Nat) (found : Option Nat)
  | unregistered (typeName : String)
  | foreignPayload (typeName : String) (expected found : Nat)
  deriving DecidableEq, Repr

/-- What is wrong with stored bytes. -/
inductive FormatFault where
  | endOfInput
  | endOfText
  | truthValue (found : Nat)
  | presenceMark (found : Nat)
  | alternative (found count : Nat)
  | character
  | text (fault : Utf8.Fault)
  | refused (message : String)
  | noIdentifier (size : Nat)
  | codewordSize (size : Nat)
  | noHeader
  | magic (found : List UInt8)
  | payloadSize (found recorded : Nat)
  | staticNotBuilt
  | tablesDiffer (rebuilt recorded : TableRecord)
  | described (text : String)
  deriving DecidableEq, Repr

/-- What went wrong with a source of bytes. -/
inductive InputFault where
  | tooShort
  | notText
  | described (text : String)
  deriving DecidableEq, Repr

/-- Why an operation failed. -/
inductive Error where
  | emptyAlphabet
  | unencodable (quoted : String)
  | malformed (fault : StreamFault) (offset : Nat)
  | alphabetTooLarge (size limit : Nat)
  | invalidConfig (fault : ConfigFault)
  | invalidState (expected actual : String)
  | unsupported (feature : MissingFeature)
  | registration (fault : RegistrationFault)
  | serialization (fault : FormatFault)
  | input (fault : InputFault)
  deriving DecidableEq, Repr

/-! ### Wording -/

def StreamFault.message : StreamFault → String
  | .recordedLength claimed available =>
    s!"recorded length {claimed} exceeds {available} available bits"
  | .fieldPastEnd width => s!"{width}-bit read runs past end of stream"
  | .numberTooLarge => "varint overflows 64 bits"
  | .literalPastEnd size => s!"{size}-byte literal runs past end of stream"
  | .noSuchCharacter value => s!"invalid code point 0x{Quoted.hexadecimal value}"
  | .literalNotText fault => s!"literal is not UTF-8: {fault.message}"
  | .noCodeword => "no code matches the input bits"
  | .codewordPastEnd => "code runs past end of stream"
  | .noSuchToken => "decode entry names a missing token"
  | .endedEarly decoded recorded => s!"stream ended after {decoded} of {recorded} symbols"
  | .bitsLeft remaining recorded => s!"{remaining} bits left after {recorded} symbols"
  | .tooManyCharacters claimed => s!"escaped string claims {claimed} characters"
  | .tooManyTexts claimed => s!"list claims {claimed} strings"
  | .described text => text

def ConfigFault.message : ConfigFault → String
  | .lengthBound lowest highest value =>
    s!"max_code_length must be between {lowest} and {highest}, got {value}"
  | .windowWidth lowest highest value =>
    s!"decode_table_bits must be between {lowest} and {highest}, got {value}"
  | .weightlessEscape => "escape_weight must be at least 1 when escapes are enabled"
  | .zeroCutoff => "min_string_frequency must be at least 1"
  | .cutoffWithoutEscape => "min_string_frequency above 1 needs escapes in the string table"
  | .codewordOutsideWindow length width =>
    s!"code of length {length} does not fit a {width}-bit window"
  | .described text => text

def MissingFeature.message : MissingFeature → String
  | .trainingStatic symbols => s!"static {symbols} codec cannot be trained"
  | .training kind => s!"{kind} codec does not support training"
  | .symbolsOfKind codec symbols => s!"{codec} codec cannot handle {symbols} symbols"
  | .fileVersion found supported => s!"codec file version {found}, expected {supported}"
  | .described text => text

def RegistrationFault.message : RegistrationFault → String
  | .duplicateGroup group => s!"duplicate registration group {Quoted.text group}"
  | .duplicateType typeName group =>
    s!"type {typeName} registered twice (second time in group {Quoted.text group})"
  | .groupFull group capacity =>
    s!"registration group {Quoted.text group} is full ({capacity} identifiers)"
  | .identifierTaken identifier typeName owner =>
    s!"identifier {identifier} of {typeName} collides with {owner}"
  | .identifierMoved typeName published found =>
    let actual := SpelledOut.optional (found.map toString)
    s!"published type {typeName} expected identifier {published}, found {actual}"
  | .unregistered typeName => s!"type {typeName} is not registered"
  | .foreignPayload typeName expected found =>
    s!"payload identifier {found} does not belong to {typeName} ({expected})"

/-- The word under which a broken registration rule is counted. -/
def RegistrationFault.category : RegistrationFault → String
  | .duplicateGroup _ => "duplicate_group"
  | .duplicateType _ _ => "duplicate_type"
  | .groupFull _ _ => "group_full"
  | .identifierTaken _ _ _ => "identifier_collision"
  | .identifierMoved _ _ _ => "manifest_mismatch"
  | .unregistered _ => "unregistered_type"
  | .foreignPayload _ _ _ => "identifier_mismatch"

def FormatFault.message : FormatFault → String
  | .endOfInput => "io error: unexpected end of file"
  | .endOfText => "io error: "
  | .truthValue found => s!"invalid u8 while decoding bool, expected 0 or 1, found {found}"
  | .presenceMark found => s!"tag for enum is not valid, found {found}"
  | .alternative found count =>
    s!"invalid value: integer `{found}`, expected variant index 0 <= i < {count}"
  | .character => "char is not valid"
  | .text fault => s!"string is not valid utf8: {fault.message}"
  | .refused message => message
  | .noIdentifier size => s!"payload of {size} bytes is too short for an identifier"
  | .codewordSize size => s!"code payload must be 5 bytes, got {size}"
  | .noHeader => "codec header too short"
  | .magic found =>
    let numbers := SpelledOut.list (found.map toString)
    s!"invalid magic bytes {numbers}"
  | .payloadSize found recorded => s!"payload truncated: {found} of {recorded} bytes"
  | .staticNotBuilt => "static codec was persisted without tables"
  | .tablesDiffer rebuilt recorded =>
    s!"rebuilt tables {rebuilt.describe} do not match recorded {recorded.describe}"
  | .described wording => wording

def InputFault.message : InputFault → String
  | .tooShort => "failed to fill whole buffer"
  | .notText => "stream did not contain valid UTF-8"
  | .described text => text

namespace Error

def message : Error → String
  | emptyAlphabet => "empty alphabet: no symbols were trained"
  | unencodable quoted =>
    s!"unencodable symbol {quoted}: not in code table and escapes are disabled"
  | malformed fault offset => s!"malformed stream at bit {offset}: {fault.message}"
  | alphabetTooLarge size limit => s!"alphabet of {size} symbols exceeds the maximum of {limit}"
  | invalidConfig fault => s!"invalid configuration: {fault.message}"
  | invalidState expected actual => s!"invalid state: expected {expected}, got {actual}"
  | unsupported feature => s!"unsupported: {feature.message}"
  | registration fault => s!"registration error: {fault.message}"
  | serialization fault => s!"serialization error: {fault.message}"
  | input fault => s!"I/O error: {fault.message}"

/-- The word under which an error is counted. -/
def category : Error → String
  | emptyAlphabet => "empty_alphabet"
  | unencodable _ => "unencodable_symbol"
  | malformed _ _ => "malformed_stream"
  | alphabetTooLarge _ _ => "alphabet_too_large"
  | invalidConfig _ => "invalid_config"
  | invalidState _ _ => "invalid_state"
  | unsupported _ => "unsupported"
  | registration _ => "registration"
  | serialization _ => "serialization"
  | input _ => "io_error"

/-- Tells whether another input or another configuration avoids the error. -/
def isRecoverable : Error → Bool
  | unencodable _ | invalidConfig _ | invalidState _ _ => true
  | _ => false

/-- The error of an operation that a codec whose tables are built no longer takes. -/
def alreadyBuilt : Error := invalidState "training" "built"

/-- The error of an operation that needs tables that are not built yet. -/
def notBuilt : Error := invalidState "built" "training"

/-- The error of codewords of which one begins another. -/
def notPrefixFree (finding : String) : Error := invalidState "prefix-free code" finding

/-- The error of codewords that leave bit sequences without a meaning. -/
def incompleteCode : Error := invalidState "full prefix code" "incomplete tree"

end Error

end HuffmanCoding
