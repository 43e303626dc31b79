import HuffmanCoding.Proofs.Codec.RoundTrip
import HuffmanCoding.Proofs.CodebookGrammar
import HuffmanCoding.Proofs.StreamContent

/-!
# What a codec decodes

A built codec spells each symbol by its codeword, or by the escape and a literal (`Codec.grammar`),
and it decodes exactly the streams that encode something by this grammar
(`HasOwnTables.decode_eq_ok_iff`). Without an escape the codewords are the only spellings. Then
encoding what was decoded gives the content of the stream back (`HasOwnTables.encode_of_encodes`).
Both hold for characters and for texts (`decode_isExact`).
-/

set_option autoImplicit false
set_option relaxedAutoImplicit false

namespace HuffmanCoding

variable {S : Type} [Symbol S]

namespace Codebook

variable {book : Codebook S} {literal : Grammar S} {write : LiteralWriter S}

/-- Without an escape a symbol is written with the bits that spell it. -/
theorem encodeSymbol_of_grammar (hescape : book.escape = none) {bits : Bits} {symbol : S}
    (h : book.grammar literal bits symbol) :
    book.encodeSymbol write symbol = .ok ⟨bits, false⟩ := by
  rcases h with ⟨codeword, hcodeword, rfl⟩ | ⟨escape, _, hsome, _, _⟩
  · unfold encodeSymbol
    rw [hcodeword]
  · rw [hescape] at hsome
    cases hsome

/-- Without an escape a sequence is written with the bits that spell it. -/
theorem encode_of_sequence (hescape : book.escape = none) {bits : Bits} {symbols : List S}
    (h : (book.grammar literal).sequence bits symbols) :
    book.encode write symbols = .ok (PackedStream.ofBits bits symbols.length) := by
  obtain ⟨pieces, hpieces, rfl⟩ := h
  refine encode_eq_ok_iff.mpr ⟨pieces.map fun piece ↦ ⟨piece, false⟩, ?_, ?_⟩
  · rw [List.forall₂_map_right_iff]
    exact (hpieces.imp fun _ _ hpiece ↦ encodeSymbol_of_grammar hescape hpiece).flip
  · rw [List.flatMap_map, List.flatMap_id']

end Codebook

namespace Codec

/-- The tables of the codec spell a symbol by its codeword, or by the escape, if there is one, and
a literal. -/
def grammar (codec : Codec S) (literal : Grammar S) : Grammar S := fun bits symbol ↦
  ∃ tables, codec.stage = .built tables ∧ tables.book.grammar literal bits symbol

/-- What a codec decodes from a stream, given how literals are spelled. -/
structure DecodesExactly (codec : Codec S) (literal : Grammar S) (stream : PackedStream) :
    Prop where
  decode_eq_ok_iff : ∀ symbols, codec.decode Symbol.readLiteral stream = .ok symbols ↔
    stream.Encodes (codec.grammar literal) symbols
  unique : ∀ first second, stream.Encodes (codec.grammar literal) first →
    stream.Encodes (codec.grammar literal) second → first = second
  encode_of_decode : codec.config.hasEscape = false → ∀ symbols,
    codec.decode Symbol.readLiteral stream = .ok symbols →
      ∃ again padding, codec.encode LiteralWriter.usual symbols = .ok again ∧
        again.bitLength = stream.bitLength ∧ again.symbolCount = stream.symbolCount ∧
        padding < 8 ∧ Bits.ofBytes again.bytes = stream.content ++ List.replicate padding false

variable {codec : Codec S} {literal : Grammar S} {stream : PackedStream}

theorem grammar_eq {tables : Tables S} (h : codec.stage = .built tables) :
    codec.grammar literal = tables.book.grammar literal := by
  funext bits symbol
  exact propext (exists_stage_iff h)

/-- A built codec decodes what a stream encodes, if its reader of literals accepts the literals. -/
theorem HasOwnTables.decode_eq_ok_iff (h : codec.HasOwnTables) {read : Reading S}
    (hread : read.Accepts literal) (hrange : stream.bitLength ≤ 8 * stream.bytes.length)
    {symbols : List S} :
    codec.decode read stream = .ok symbols ↔ stream.Encodes (codec.grammar literal) symbols := by
  obtain ⟨tables, hstage, hderived⟩ := h.exists_isDerived
  rw [decode_eq hstage, grammar_eq hstage]
  exact PackedStream.decodeItems_eq_ok_iff
    (hderived.serves.accepts_readSymbol hderived.isPrefixCode hread)
    (hderived.isPrefixCode.takesBits_grammar literal) hrange

/-- A stream that was encoded has bytes for all of its bits. -/
theorem HasOwnTables.bitLength_le (h : codec.HasOwnTables) {write : LiteralWriter S}
    {symbols : List S} (hstream : codec.encode write symbols = .ok stream) :
    stream.bitLength ≤ 8 * stream.bytes.length := by
  obtain ⟨tables, hstage, _⟩ := h.exists_isDerived
  rw [encode_eq hstage] at hstream
  obtain ⟨pieces, _, rfl⟩ := Codebook.encode_eq_ok_iff.mp hstream
  exact PackedStream.bitLength_ofBits_le _ _

/-- Without an escape, encoding what a stream encodes gives its content back. -/
theorem HasOwnTables.encode_of_encodes (h : codec.HasOwnTables)
    (hescape : codec.config.hasEscape = false) (write : LiteralWriter S) {symbols : List S}
    (hencodes : stream.Encodes (codec.grammar literal) symbols) :
    codec.encode write symbols = .ok (PackedStream.ofBits stream.content stream.symbolCount) := by
  obtain ⟨tables, hstage, hderived⟩ := h.exists_isDerived
  have hnone : tables.book.escape = none := by
    have hsome := hderived.isSome_escape_iff
    rw [hescape] at hsome
    rw [← Option.not_isSome_iff_eq_none]
    exact fun hescape ↦ Bool.false_ne_true (hsome.mp hescape)
  have hspelled := hencodes.spelled
  rw [grammar_eq hstage] at hspelled
  rw [← hencodes.count_eq, encode_eq hstage]
  exact Codebook.encode_of_sequence hnone hspelled

/-- A built codec decodes exactly what its grammar says. -/
theorem HasOwnTables.decodesExactly (h : codec.HasOwnTables)
    (hread : (Symbol.readLiteral : Reading S).Accepts literal)
    (hrange : stream.bitLength ≤ 8 * stream.bytes.length) :
    codec.DecodesExactly literal stream where
  decode_eq_ok_iff := fun _ ↦ h.decode_eq_ok_iff hread hrange
  unique := by
    intro first second hfirst hsecond
    rw [← h.decode_eq_ok_iff hread hrange] at hfirst hsecond
    rw [hfirst, Except.ok.injEq] at hsecond
    exact hsecond
  encode_of_decode := by
    intro hescape symbols hdecode
    rw [h.decode_eq_ok_iff hread hrange] at hdecode
    refine ⟨_, _, h.encode_of_encodes hescape LiteralWriter.usual hdecode,
      PackedStream.length_content hrange, rfl, ?_, Bits.ofBytes_toBytes stream.content⟩
    omega

/-- Built codecs for characters and for texts decode a stream exactly if its recorded number of
symbols is spelled by its recorded bits. Each symbol is spelled by its codeword, or by the escape
and its literal: a character by its number, a text by the number of its bytes and the bytes. A
stream encodes at most one sequence, and without an escape the codec encodes it in no other way. -/
theorem decode_isExact :
    (∀ codec : Codec Char, codec.HasOwnTables → ∀ stream : PackedStream,
      stream.bitLength ≤ 8 * stream.bytes.length →
        codec.DecodesExactly Grammar.character stream) ∧
    ∀ codec : Codec String, codec.HasOwnTables → ∀ stream : PackedStream,
      stream.bitLength ≤ 8 * stream.bytes.length →
        codec.DecodesExactly Grammar.text stream :=
  ⟨fun _ h _ hrange ↦ h.decodesExactly Reading.accepts_character hrange,
    fun _ h _ hrange ↦ h.decodesExactly Reading.accepts_text hrange⟩

/-- A codec for two letters without an escape decodes what it encoded, and a codec for two words
decodes another word with them. -/
theorem decode_isExact_of_letters :
    ∃ (characters : Codec Char) (texts : Codec String) (letters words : PackedStream),
      characters.HasOwnTables ∧ characters.config.hasEscape = false ∧ texts.HasOwnTables ∧
      letters.bitLength ≤ 8 * letters.bytes.length ∧ words.bitLength ≤ 8 * words.bytes.length ∧
      characters.decode Symbol.readLiteral letters = .ok ['b', 'a'] ∧
      characters.DecodesExactly Grammar.character letters ∧
      texts.decode Symbol.readLiteral words = .ok ["b", "", "z"] ∧
      texts.DecodesExactly Grammar.text words := by
  obtain ⟨hcharacters, htexts⟩ := decode_isExact
  obtain ⟨characters, hmade⟩ := (exists_ofFrequencies_iff
    ((Frequencies.empty.add 'a' 1).add 'b' 2) .strict).mpr
      ⟨by decide, by decide +kernel, by decide +kernel⟩
  obtain ⟨texts, hmadeTexts⟩ := (exists_ofFrequencies_iff
    ((Frequencies.empty.add "a" 1).add "b" 2) .standard).mpr
      ⟨by decide, by decide +kernel, by decide +kernel⟩
  obtain ⟨hown, hconfig, hcounts⟩ := hasOwnTables_of_ofFrequencies hmade
  obtain ⟨hownTexts, hconfigTexts, _⟩ := hasOwnTables_of_ofFrequencies hmadeTexts
  have hcode : ∀ letter ∈ ['b', 'a'], characters.HasCode letter := by
    intro letter hletter
    rw [hown.hasCode_iff, hcounts]
    rcases List.mem_pair.mp hletter with rfl | rfl
    · decide +kernel
    · decide +kernel
  have hround := hown.roundTrips_characters ['b', 'a']
  have hroundTexts := hownTexts.roundTrips_texts
    (by decide : ∀ word ∈ ["b", "", "z"], IsStorable word)
  obtain ⟨letters, hletters⟩ := hround.encode_ok_iff.mpr (Or.inr hcode)
  obtain ⟨words, hwords⟩ := hroundTexts.encode_ok_iff.mpr (Or.inl (hconfigTexts ▸ rfl))
  have hrange := hown.bitLength_le hletters
  have hrangeTexts := hownTexts.bitLength_le hwords
  exact ⟨characters, texts, letters, words, hown, hconfig ▸ rfl, hownTexts, hrange, hrangeTexts,
    (hround.restores letters hletters).decode_eq, hcharacters characters hown letters hrange,
    (hroundTexts.restores words hwords).decode_eq, htexts texts hownTexts words hrangeTexts⟩

end Codec

end HuffmanCoding
