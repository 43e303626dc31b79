import HuffmanCoding.Codebook
import HuffmanCoding.PackedStream
import HuffmanCoding.Statistics

/-!
# Encoding with a codebook

A symbol is written as its codeword. A symbol without one is written as the escape followed by its
literal, and cannot be written if the codebook has no escape. How a literal looks is up to the
caller; the usual way is `Symbol.literal`.
-/

set_option autoImplicit false
set_option relaxedAutoImplicit false

namespace HuffmanCoding

/-- How the literals of symbols are written. -/
abbrev LiteralWriter (S : Type) := S → Except Error Bits

/-- What was encoded and counted, with the kind of the codec in the statistics. -/
def Statistics.withKind (kind : CodecKind) (counted : Except Error (PackedStream × Statistics)) :
    Except Error (PackedStream × Statistics) := do
  let (stream, statistics) ← counted
  return (stream, { statistics with kind := some kind })

def Error.unencodableSymbol {S : Type} [Symbol S] (symbol : S) : Error :=
  .unencodable (Symbol.quoted symbol)

/-- Writes every symbol in its own literal form. -/
def LiteralWriter.usual {S : Type} [Symbol S] : LiteralWriter S :=
  fun symbol ↦ .ok (Symbol.literal symbol)

/-- The bits of one symbol. -/
structure EncodedSymbol where
  bits : Bits
  escaped : Bool
  deriving DecidableEq

namespace ByteWriting

/-- Writes symbols one after the other, and counts each of them with the way in which it was
written. -/
def each {m : Type → Type} [Monad m] {S α : Type} (write : S → m Bool) (count : α → S → Bool → α) :
    (counted : α) → List S → m α
  | counted, [] => return counted
  | counted, symbol :: rest => do
    let escaped ← write symbol
    each write count (count counted symbol escaped) rest

/-- The stream of what was written, and what that cost. -/
def finish (write : ByteWriting Statistics) (symbolCount : Nat) :
    Except Error (PackedStream × Statistics) :=
  match write.run .empty with
  | .ok statistics writer =>
    let stream := writer.stream symbolCount
    .ok (stream, { statistics with
      symbols := stream.symbolCount
      encodedBits := stream.bitLength })
  | .error error _ => .error error

end ByteWriting

namespace Codebook

variable {S : Type} [Symbol S]

def encodeSymbol (book : Codebook S) (literal : LiteralWriter S) (symbol : S) :
    Except Error EncodedSymbol :=
  match book.codewordOf? symbol, book.escape with
  | some codeword, _ => .ok ⟨codeword.path, false⟩
  | none, some escape => do
    let literal ← literal symbol
    return ⟨escape.path ++ literal, true⟩
  | none, none => .error (.unencodableSymbol symbol)

def encodeCounted (book : Codebook S) (literal : LiteralWriter S) (symbols : List S) :
    Except Error (PackedStream × Statistics) := do
  let pieces ← symbols.mapM (book.encodeSymbol literal)
  let stream := PackedStream.ofBits (pieces.flatMap (·.bits)) symbols.length
  return (stream, {
    kind := none
    symbols := symbols.length
    escaped := pieces.countP (·.escaped)
    encodedBits := stream.bitLength
    rawBits := (symbols.map Symbol.rawBits).foldr (· + ·) 0 })

def encode (book : Codebook S) (literal : LiteralWriter S) (symbols : List S) :
    Except Error PackedStream := do
  let (stream, _) ← book.encodeCounted literal symbols
  return stream

section Writing

variable {m : Type → Type} [Monad m] [MonadLiftT ByteWriting m]

/-- Writes one symbol into bytes, and tells whether it was written as a literal. The writer of
literals may keep a memory of its own. -/
def writeSymbol (book : Codebook S) (literal : S → m Unit) (symbol : S) : m Bool :=
  match book.codewordOf? symbol, book.escape with
  | some codeword, _ => do
    ByteWriting.put codeword.length.toNat codeword.bits.toNat
    return false
  | none, some escape => do
    ByteWriting.put escape.length.toNat escape.bits.toNat
    literal symbol
    return true
  | none, none => (throw (.unencodableSymbol symbol) : ByteWriting Bool)

/-- Writes a sequence of symbols into bytes, and counts them on the way. -/
def writeSymbols (book : Codebook S) (literal : S → m Unit) (symbols : List S) : m Statistics :=
  ByteWriting.each (book.writeSymbol literal)
    (fun statistics symbol ↦ statistics.tally (Symbol.rawBits symbol)) .empty symbols

end Writing

def encodeIntoBytes (book : Codebook S) (literal : S → ByteWriting Unit) (symbols : List S) :
    Except Error (PackedStream × Statistics) :=
  (book.writeSymbols literal symbols).finish symbols.length

/-- Writes a sequence of symbols into bytes, where the writer of literals begins with a memory. -/
def encodeWithMemory {ρ : Type} (book : Codebook S) (literal : S → StateT ρ ByteWriting Unit)
    (memory : ρ) (symbols : List S) : Except Error (PackedStream × Statistics) :=
  ((book.writeSymbols literal symbols).run' memory).finish symbols.length

/-- The average number of bits per symbol under the weights of the codebook, or zero if nothing has
a weight. -/
def averageLength (book : Codebook S) : Float :=
  quotient book.weightedLength book.totalWeight 0

end Codebook

end HuffmanCoding
