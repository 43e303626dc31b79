import HuffmanCoding.Codebook
import HuffmanCoding.PackedStream
import HuffmanCoding.TableConfig
import HuffmanCoding.Warning
import HuffmanCoding.WindowTable

/-!
# Decoding through windows

A decoder looks at as many bits as the longest codeword has, finds the codeword that begins them in
a window table, and moves on by the length of that codeword. Behind the end of the stream the window
sees zeros, so the codeword that it finds may be longer than the bits that are left, which is an
error.

A decoder that was read from storage need not fit any codebook.
-/

set_option autoImplicit false
set_option relaxedAutoImplicit false

namespace HuffmanCoding

/-- A window table and the tokens that its slots name. -/
structure WindowDecoder (S : Type) where
  tokens : Array (Token S)
  table : WindowTable
  deriving DecidableEq

namespace WindowDecoder

variable {S : Type}

/-- The decoder for a codebook. The window is as wide as the longest codeword, and a wider one than
the configuration prefers is reported. -/
def ofCodebook [Symbol S] (book : Codebook S) (config : TableConfig) :
    Logged (WindowDecoder S) := do
  let width := book.longest
  Logged.warnIf (config.windowWidth < width)
    (.windowWidened width.toNat config.windowWidth.toNat)
  let table ← Logged.ofExcept (WindowTable.build (book.rows.map (·.codeword)) width)
  return ⟨(book.rows.map (·.token)).toArray, table⟩

section Reading

variable {m : Type → Type} [Monad m] [BitInput m]

def readToken (decoder : WindowDecoder S) : m (Token S) := do
  let place ← Reading.position
  let left ← Reading.remaining
  let slot := decoder.table.lookup (← Reading.peek decoder.table.width.toNat)
  if !slot.isTaken then Reading.fail .noCodeword place
  else if left < slot.length.toNat then Reading.fail .codewordPastEnd place
  else
    Reading.skip slot.length.toNat
    match decoder.tokens[slot.token.toNat]? with
    | some token => return token
    | none => Reading.fail .noSuchToken place

/-- Reads a symbol, which may stand there as a literal. -/
def readSymbol (decoder : WindowDecoder S) (literal : m S) : m S := do
  match ← decoder.readToken with
  | .symbol symbol => return symbol
  | .escape => literal

end Reading

def decode (decoder : WindowDecoder S) (literal : Reading S) (stream : PackedStream) :
    Except Error (List S) :=
  stream.decodeItems (decoder.readSymbol literal)

end WindowDecoder

end HuffmanCoding
