import HuffmanCoding.Proofs.Codeword
import HuffmanCoding.Proofs.Encoding
import HuffmanCoding.Proofs.Literals
import HuffmanCoding.Proofs.StreamContent
import Mathlib.Data.Nat.Log

/-!
# What encoding comes to

Two sequences that follow each other are encoded as the bits of the first one and then the bits of
the second one, although the second one need not begin at a byte, and their statistics are merged
(`Codebook.encodeCounted_append`). This is an equation between outcomes, so it tells where the
encoding of both together fails, too.

Statistics are exact. A symbol costs the bits of its codeword, or those of the escape and of its
literal (`Codebook.cost`), and the stream is as long as its symbols cost together
(`Codebook.accounts_of_encodeCounted`).
-/

set_option autoImplicit false
set_option relaxedAutoImplicit false

namespace HuffmanCoding

/-- The stream of the bits of one stream and then those of another one. -/
def PackedStream.append (first second : PackedStream) : PackedStream :=
  ofBits (first.content ++ second.content) (first.symbolCount + second.symbolCount)

/-! ### The sizes of literals -/

/-- The number of bits in a number of variable size. -/
def Bits.numberSize (value : ℕ) : ℕ :=
  8 * (Nat.log 128 value + 1)

theorem Bits.length_ofNumber (value : ℕ) : (ofNumber value).length = numberSize value := by
  fun_induction ofNumber value with
  | case1 value hsmall => rw [length_ofNat, numberSize, Nat.log_of_lt hsmall]
  | case2 value hlarge ih =>
    rw [List.length_append, length_ofNat, ih, numberSize, numberSize,
      Nat.log_of_one_lt_of_le (by decide) (Nat.not_lt.mp hlarge), Nat.mul_succ 8 (_ + 1),
      Nat.add_comm]

def textLiteralSize (text : String) : ℕ :=
  Bits.numberSize text.utf8ByteSize + text.utf8ByteSize * 8

theorem length_textLiteral (text : String) : (textLiteral text).length = textLiteralSize text := by
  rw [textLiteral, List.length_append, Bits.length_ofNumber, Bits.length_ofBytes,
    Utf8.length_encode, textLiteralSize]

/-- The literals have given sizes. -/
def LiteralWriter.HasSizes {S : Type} (literal : LiteralWriter S) (size : S → ℕ) : Prop :=
  ∀ symbol bits, literal symbol = .ok bits → bits.length = size symbol

theorem LiteralWriter.hasSizes_character :
    (LiteralWriter.usual (S := Char)).HasSizes fun _ ↦ characterBits := by
  intro letter bits hbits
  cases hbits
  exact Bits.length_ofNat characterBits letter.toNat

/-! ### The cost of symbols -/

namespace Codebook

variable {S : Type} [Symbol S] {book : Codebook S} {literal : LiteralWriter S}

def lacks (book : Codebook S) (symbol : S) : Bool :=
  (book.codewordOf? symbol).isNone

/-- The number of bits that a symbol takes, given the sizes of literals. -/
def cost (book : Codebook S) (size : S → ℕ) (symbol : S) : ℕ :=
  match book.codewordOf? symbol, book.escape with
  | some codeword, _ => codeword.length.toNat
  | none, some escape => escape.length.toNat + size symbol
  | none, none => 0

/-- A stream and its statistics are exact for a sequence of symbols, given the sizes of literals. -/
structure Accounts (book : Codebook S) (size : S → ℕ) (symbols : List S) (stream : PackedStream)
    (statistics : Statistics) : Prop where
  symbolCount_eq : stream.symbolCount = symbols.length
  bitLength_eq : stream.bitLength = (symbols.map (book.cost size)).sum
  symbols_eq : statistics.symbols = symbols.length
  encodedBits_eq : statistics.encodedBits = stream.bitLength
  escaped_eq : statistics.escaped = symbols.countP book.lacks
  rawBits_eq : statistics.rawBits = (symbols.map Symbol.rawBits).sum

section Pieces

variable {size : S → ℕ}

/-- What is written for a symbol has the cost of the symbol, and it is a literal if the symbol has
no codeword. -/
theorem cost_of_encodeSymbol (hsize : literal.HasSizes size) {symbol : S} {piece : EncodedSymbol}
    (h : book.encodeSymbol literal symbol = .ok piece) :
    piece.bits.length = book.cost size symbol ∧ piece.escaped = book.lacks symbol := by
  unfold cost lacks
  rcases encodeSymbol_cases h with ⟨codeword, hcodeword, rfl⟩ |
    ⟨escape, bits, hcodeword, hescape, hbits, rfl⟩
  · rw [hcodeword]
    exact ⟨codeword.length_path, rfl⟩
  · rw [hcodeword, hescape]
    refine ⟨?_, rfl⟩
    show (escape.path ++ bits).length = escape.length.toNat + size symbol
    rw [List.length_append, escape.length_path, hsize symbol bits hbits]

/-- What is written for symbols has their costs together. -/
theorem cost_of_pieces (hsize : literal.HasSizes size) {symbols : List S}
    {pieces : List EncodedSymbol} (h : List.Forall₂
      (fun symbol piece ↦ book.encodeSymbol literal symbol = .ok piece) symbols pieces) :
    (pieces.flatMap (·.bits)).length = (symbols.map (book.cost size)).sum ∧
      pieces.countP (·.escaped) = symbols.countP book.lacks := by
  induction h with
  | nil => exact ⟨rfl, rfl⟩
  | cons hpiece _ ih =>
    obtain ⟨hcost, hescaped⟩ := cost_of_encodeSymbol hsize hpiece
    rw [List.flatMap_cons, List.length_append, List.map_cons, List.sum_cons, List.countP_cons,
      List.countP_cons, hcost, hescaped, ih.1, ih.2]
    exact ⟨rfl, rfl⟩

end Pieces

/-! ### Sequences -/

section Sequences

/-- The statistics of a stream, given the pieces of which it is made. -/
theorem encodeCounted_eq_ok_iff {symbols : List S} {stream : PackedStream}
    {statistics : Statistics} :
    book.encodeCounted literal symbols = .ok (stream, statistics) ↔
      ∃ pieces, List.Forall₂ (fun symbol piece ↦ book.encodeSymbol literal symbol = .ok piece)
          symbols pieces ∧
        stream = .ofBits (pieces.flatMap (·.bits)) symbols.length ∧
        statistics = ⟨none, symbols.length, pieces.countP (·.escaped), stream.bitLength,
          (symbols.map Symbol.rawBits).sum⟩ := by
  unfold encodeCounted
  simp only [Outcome.bind_eq_ok_iff, Outcome.mapM_eq_ok_iff]
  refine exists_congr fun pieces ↦ and_congr_right fun _ ↦ ?_
  constructor
  · intro hpure
    cases hpure
    exact ⟨rfl, rfl⟩
  · rintro ⟨rfl, rfl⟩
    rfl

/-- The stream does not depend on whether anything is counted. -/
theorem encode_eq_map (book : Codebook S) (literal : LiteralWriter S) (symbols : List S) :
    book.encode literal symbols = (book.encodeCounted literal symbols).map Prod.fst := by
  unfold encode
  cases book.encodeCounted literal symbols <;> rfl

/-- Statistics are exact. -/
theorem accounts_of_encodeCounted {size : S → ℕ} (hsize : literal.HasSizes size) {symbols : List S}
    {stream : PackedStream} {statistics : Statistics}
    (h : book.encodeCounted literal symbols = .ok (stream, statistics)) :
    book.Accounts size symbols stream statistics := by
  obtain ⟨pieces, hpieces, rfl, rfl⟩ := encodeCounted_eq_ok_iff.mp h
  obtain ⟨hcost, hescaped⟩ := cost_of_pieces hsize hpieces
  exact ⟨rfl, hcost, rfl, rfl, hescaped, rfl⟩

/-- Sequences that follow each other are encoded if each of them is, as their bits one after the
other, and the statistics are merged. The error is that of the first sequence that has one. -/
theorem encodeCounted_append (book : Codebook S) (literal : LiteralWriter S)
    (first second : List S) : book.encodeCounted literal (first ++ second) = do
      let (stream, statistics) ← book.encodeCounted literal first
      let (more, others) ← book.encodeCounted literal second
      return (stream.append more, statistics.merge others) := by
  unfold encodeCounted
  rw [List.mapM_append]
  cases first.mapM (book.encodeSymbol literal) with
  | error error => rfl
  | ok pieces =>
    cases second.mapM (book.encodeSymbol literal) with
    | error error => rfl
    | ok others =>
      have hbits : (pieces ++ others).flatMap (·.bits) =
          pieces.flatMap (·.bits) ++ others.flatMap (·.bits) := List.flatMap_append
      have hraw : ((first ++ second).map Symbol.rawBits).sum =
          (first.map Symbol.rawBits).sum + (second.map Symbol.rawBits).sum := by
        rw [List.map_append, List.sum_append]
      show Except.ok (_, Statistics.mk _ _ _ _ (List.sum _)) =
        Except.ok (PackedStream.append _ _, Statistics.merge _ _)
      rw [hraw, hbits, List.length_append, List.countP_append, PackedStream.append,
        PackedStream.content_ofBits, PackedStream.content_ofBits, Statistics.merge]
      simp only [PackedStream.ofBits, List.length_append]
      rfl

end Sequences

end Codebook

end HuffmanCoding
