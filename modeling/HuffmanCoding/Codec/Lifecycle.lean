import HuffmanCoding.Codec.Tables
import HuffmanCoding.Codec.Update

/-!
# Codecs and their lifecycle

A codec counts symbols until its tables are built, and encodes and decodes from then on. A codec
that was made from given counts has its tables from the start and does not learn. Building fails
where the counts have no tables, and then the codec goes on counting.

A codec is saved as its counts together with a record of its tables. Loading derives the tables anew
and refuses the saved codec if they come out differently.
-/

set_option autoImplicit false
set_option relaxedAutoImplicit false

namespace HuffmanCoding

/-- How far a codec has come. -/
inductive Stage (S : Type) [Symbol S] where
  | training (frequencies : Frequencies S)
  | built (tables : Tables S)

/-- A codec for sequences of symbols of type `S`: how its tables are built, whether it was made to
learn, and how far it has come. -/
structure Codec (S : Type) [Symbol S] where
  config : TableConfig
  isTrainable : Bool
  stage : Stage S

/-- What is stored of a codec: its counts, and what is remembered of its tables if it has any. -/
structure SavedCodec (S : Type) [Symbol S] where
  config : TableConfig
  isTrainable : Bool
  frequencies : Frequencies S
  record : Option TableRecord

namespace Stage

variable {S : Type} [Symbol S]

def name : Stage S → String
  | training _ => "training"
  | built _ => "built"

def frequencies : Stage S → Frequencies S
  | training frequencies => frequencies
  | built tables => tables.frequencies

def tables? : Stage S → Option (Tables S)
  | training _ => none
  | built tables => some tables

end Stage

namespace Codec

variable {S : Type} [Symbol S]

/-- A codec that has not seen any symbol and learns. -/
def trainable (config : TableConfig) : Codec S :=
  ⟨config, true, .training .empty⟩

/-- A codec with the tables of given counts, which does not learn. -/
def ofFrequencies (frequencies : Frequencies S) (config : TableConfig) : Logged (Codec S) := do
  let tables ← Tables.build frequencies config
  return ⟨config, false, .built tables⟩

def frequencies (codec : Codec S) : Frequencies S :=
  codec.stage.frequencies

def isBuilt (codec : Codec S) : Bool :=
  codec.stage.tables?.isSome

def tables (codec : Codec S) : Except Error (Tables S) :=
  match codec.stage with
  | .built tables => .ok tables
  | .training _ => .error .notBuilt

/-! ### Training -/

def counts (codec : Codec S) : Except Error (Frequencies S) :=
  if codec.isTrainable then
    match codec.stage with
    | .training frequencies => .ok frequencies
    | .built _ => .error .alreadyBuilt
  else .error (.unsupported (.trainingStatic (Symbol.typeName S)))

/-- Changes the counts of a codec that still learns. -/
def count (change : Frequencies S → Frequencies S) : Update (Codec S) Unit := do
  let codec ← Update.codec
  let frequencies ← Update.ofExcept codec.counts
  Update.replace { codec with stage := .training (change frequencies) }

def trainTimes (symbol : S) (occurrences : Weight) : Update (Codec S) Unit :=
  count (·.add symbol occurrences)

def train (symbol : S) : Update (Codec S) Unit :=
  trainTimes symbol 1

def trainAll (symbols : List S) : Update (Codec S) Unit :=
  count (·.addAll symbols)

def merge (frequencies : Frequencies S) : Update (Codec S) Unit :=
  count (·.merge frequencies)

/-- Forgets the symbols that were seen fewer than `cutoff` times, and tells how many these were. -/
def keepAtLeast (cutoff : Weight) : Update (Codec S) Nat := do
  let before ← Update.ofExcept (← Update.codec).counts
  count (·.keepAtLeast cutoff)
  return before.size - (before.keepAtLeast cutoff).size

/-- Derives the tables. A codec that has none for its counts goes on learning. -/
def build : Update (Codec S) Unit := do
  let codec ← Update.codec
  match codec.stage with
  | .built _ => throw .alreadyBuilt
  | .training frequencies =>
    let tables ← Update.hearing (Tables.build frequencies codec.config)
    Update.replace { codec with stage := .built tables }

/-! ### Encoding and decoding -/

def encodeCounted (codec : Codec S) (literal : LiteralWriter S) (symbols : List S) :
    Except Error (PackedStream × Statistics) := do
  (← codec.tables).book.encodeCounted literal symbols

def encode (codec : Codec S) (literal : LiteralWriter S) (symbols : List S) :
    Except Error PackedStream := do
  (← codec.tables).book.encode literal symbols

def encodeIntoBytes (codec : Codec S) (write : S → ByteWriting Unit) (symbols : List S) :
    Except Error (PackedStream × Statistics) := do
  (← codec.tables).book.encodeIntoBytes write symbols

/-- Writes a sequence of symbols into bytes, where the writer of literals begins with a memory. -/
def encodeWithMemory {ρ : Type} (codec : Codec S) (write : S → StateT ρ ByteWriting Unit)
    (memory : ρ) (symbols : List S) : Except Error (PackedStream × Statistics) := do
  (← codec.tables).book.encodeWithMemory write memory symbols

def decode (codec : Codec S) (literal : Reading S) (stream : PackedStream) :
    Except Error (List S) := do
  (← codec.tables).decoder.decode literal stream

def decodeFromBytes (codec : Codec S) (literal : ByteReading S) (stream : PackedStream) :
    Except Error (List S) := do
  stream.itemsFromBytes ((← codec.tables).decoder.readSymbol literal)

/-- Reads a sequence of symbols, where the reader of literals begins with a memory. -/
def decodeWithMemory {ρ : Type} (codec : Codec S) (literal : StateT ρ Reading S) (memory : ρ)
    (stream : PackedStream) : Except Error (List S) := do
  stream.decodeItemsWithMemory ((← codec.tables).decoder.readSymbol literal) memory

/-! ### Saving and loading -/

def saved (codec : Codec S) : SavedCodec S where
  config := codec.config
  isTrainable := codec.isTrainable
  frequencies := codec.frequencies
  record := codec.stage.tables?.map Tables.record

/-- The codec of which something was stored. -/
def ofSaved (saved : SavedCodec S) : Logged (Codec S) :=
  match saved.record with
  | none =>
    if saved.isTrainable then
      return ⟨saved.config, true, .training saved.frequencies⟩
    else throw (.serialization .staticNotBuilt)
  | some record => do
    let tables ← Tables.build saved.frequencies saved.config
    if tables.record = record then return ⟨saved.config, saved.isTrainable, .built tables⟩
    else throw (.serialization (.tablesDiffer tables.record record))

def describe (codec : Codec S) : String :=
  SpelledOut.record "HuffmanCodec"
    [("symbol", Quoted.text (Symbol.typeName S)), ("config", codec.config.describe),
      ("trainable", toString codec.isTrainable), ("state", Quoted.text codec.stage.name),
      ("symbols", toString codec.frequencies.size)]

end Codec

end HuffmanCoding
