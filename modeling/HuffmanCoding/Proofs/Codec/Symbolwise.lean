import HuffmanCoding.Codec.Characters
import HuffmanCoding.Proofs.Accounting
import HuffmanCoding.Proofs.Codec.Decoding
import HuffmanCoding.Proofs.Codec.Texts
import HuffmanCoding.Proofs.IntoBytes

/-!
# Encoding symbol by symbol

A codec writes its symbols straight into bytes, and so it does with the literals inside of them: the
characters of a text that is spelled follow each other in the same byte. Their number of bits is
known from the tables (`TextCodec.spelledSize`), and writing them into bytes comes to the same as
packing them in the end (`TextCodec.IsSound.writesLiteral_writeSpelled`).

So a codec for characters or for texts that has its tables works symbol by symbol: the bits of two
sequences that follow each other are those of the first one and those of the second one, their
statistics are merged, and all statistics are exact (`encoding_isSymbolwise`).
-/

set_option autoImplicit false
set_option relaxedAutoImplicit false

namespace HuffmanCoding

/-! ### Encoding into bytes -/

namespace Codec

variable {S : Type} [Symbol S] {codec : Codec S}

/-- No codeword of a codec has more than 32 bits. -/
theorem IsSound.isNarrow (h : codec.IsSound) {tables : Tables S}
    (hstage : codec.stage = .built tables) : tables.book.IsNarrow :=
  (Tables.build_eq_ok_iff.mp (h tables hstage)).isNarrow

/-- The symbols that are counted as literals are those without a codeword. -/
theorem lacks_iff {tables : Tables S} (hstage : codec.stage = .built tables) {symbol : S} :
    tables.book.lacks symbol = true ↔ ¬ codec.HasCode symbol := by
  rw [hasCode_iff hstage, Codebook.lacks, ← Option.not_isSome, Bool.not_eq_true', Bool.not_eq_true]

end Codec

namespace TextCodec

variable {codec : TextCodec}

/-- A text is spelled into bytes as it is spelled. -/
theorem IsSound.writesLiteral_writeSpelled (h : codec.IsSound) :
    ByteWriting.WritesLiteral codec.writeSpelled codec.spell := by
  intro text
  unfold writeSpelled
  cases hstage : codec.characters.stage with
  | training frequencies =>
    rw [spell_training hstage]
    exact ByteWriting.writesLiteral_text text
  | built tables =>
    have hwrite := (h.characters.isNarrow hstage).writes_writeSymbol
      ByteWriting.writesLiteral_character
    have heach := ByteWriting.writes_each hwrite (fun _ _ _ ↦ ()) () text.toList
    have hboth := (ByteWriting.writes_number text.length).andThen heach
    rw [spell_built hstage]
    cases hpieces : text.toList.mapM (tables.book.encodeSymbol LiteralWriter.usual) with
    | error error =>
      rw [hpieces] at hboth
      exact hboth
    | ok pieces =>
      rw [hpieces] at hboth
      exact hboth

/-- The number of bits in the characters of a text and their number, or in its literal. -/
def spelledSize (codec : TextCodec) (text : String) : ℕ :=
  match codec.characters.stage.tables? with
  | none => textLiteralSize text
  | some tables =>
    Bits.numberSize text.length +
      (text.toList.map (tables.book.cost fun _ ↦ characterBits)).sum

theorem hasSizes_spell (codec : TextCodec) : codec.spell.HasSizes codec.spelledSize := by
  intro text bits hbits
  unfold spelledSize
  cases hstage : codec.characters.stage with
  | training frequencies =>
    rw [spell_training hstage] at hbits
    cases hbits
    exact length_textLiteral text
  | built tables =>
    rw [spell_built hstage] at hbits
    obtain ⟨pieces, hpieces, hpure⟩ := Outcome.bind_eq_ok_iff.mp hbits
    cases hpure
    have hcost := Codebook.cost_of_pieces LiteralWriter.hasSizes_character
      (Outcome.mapM_eq_ok_iff.mp hpieces)
    rw [List.length_append, Bits.length_ofNumber, hcost.1]
    rfl

end TextCodec

/-! ### Symbol by symbol -/

/-- A way to encode, which counts and writes into bytes, goes symbol by symbol: sequences that
follow each other are encoded one after the other, their statistics are merged, and these are exact.
-/
structure EncodesSymbolwise {S : Type} [Symbol S] (book : Codebook S) (size : S → ℕ)
    (encode : List S → Except Error PackedStream)
    (encodeCounted encodeIntoBytes : List S → Except Error (PackedStream × Statistics)) :
    Prop where
  encode_eq : ∀ symbols, encode symbols = (encodeCounted symbols).map Prod.fst
  encodeIntoBytes_eq : ∀ symbols, encodeIntoBytes symbols = encodeCounted symbols
  exists_append_iff : ∀ first second, (∃ stream, encode (first ++ second) = .ok stream) ↔
    (∃ stream, encode first = .ok stream) ∧ ∃ stream, encode second = .ok stream
  encode_append : ∀ first second stream more, encode first = .ok stream →
    encode second = .ok more → encode (first ++ second) = .ok (stream.append more)
  encodeCounted_append : ∀ first second stream more statistics others,
    encodeCounted first = .ok (stream, statistics) →
    encodeCounted second = .ok (more, others) →
    encodeCounted (first ++ second) = .ok (stream.append more, statistics.merge others)
  accounts : ∀ symbols stream statistics, encodeCounted symbols = .ok (stream, statistics) →
    book.Accounts size symbols stream statistics

/-- What a codec does with its codebook goes symbol by symbol. -/
theorem Codebook.encodesSymbolwise {S : Type} [Symbol S] {book : Codebook S}
    (hnarrow : book.IsNarrow) {literal : LiteralWriter S} {write : S → ByteWriting Unit}
    (hwrite : ByteWriting.WritesLiteral write literal) {size : S → ℕ}
    (hsize : literal.HasSizes size) (kind : CodecKind) :
    EncodesSymbolwise book size (book.encode literal)
      (fun symbols ↦ Statistics.withKind kind (book.encodeCounted literal symbols))
      (fun symbols ↦ Statistics.withKind kind (book.encodeIntoBytes write symbols)) where
  encode_eq := by
    intro symbols
    rw [encode_eq_map]
    cases book.encodeCounted literal symbols <;> rfl
  encodeIntoBytes_eq := by
    intro symbols
    rw [hnarrow.encodeIntoBytes_eq hwrite]
  exists_append_iff := by
    intro first second
    simp only [exists_encode_iff, List.forall_mem_append]
  encode_append := by
    intro first second stream more hfirst hsecond
    rw [encode_eq_map, Outcome.map_eq_ok_iff] at hfirst hsecond
    obtain ⟨counted, hcounted, rfl⟩ := hfirst
    obtain ⟨others, hothers, rfl⟩ := hsecond
    rw [encode_eq_map, encodeCounted_append, hcounted, hothers]
    rfl
  encodeCounted_append := by
    intro first second stream more statistics others hfirst hsecond
    obtain ⟨counted, hcounted, hpure⟩ := Outcome.bind_eq_ok_iff.mp hfirst
    obtain ⟨countedOthers, hothers, hpureOthers⟩ := Outcome.bind_eq_ok_iff.mp hsecond
    cases hpure
    cases hpureOthers
    rw [encodeCounted_append, hcounted, hothers]
    rfl
  accounts := by
    intro symbols stream statistics h
    obtain ⟨counted, hcounted, hpure⟩ := Outcome.bind_eq_ok_iff.mp h
    cases hpure
    obtain ⟨hcount, hbits, hsymbols, hencoded, hescaped, hraw⟩ :=
      accounts_of_encodeCounted hsize hcounted
    exact ⟨hcount, hbits, hsymbols, hencoded, hescaped, hraw⟩

/-- A codec that is built encodes symbol by symbol, if literals are written into bytes as they are
and have known sizes. -/
theorem Codec.IsSound.encodesSymbolwise {S : Type} [Symbol S] {codec : Codec S}
    (h : codec.IsSound) {tables : Tables S} (hstage : codec.stage = .built tables)
    {literal : LiteralWriter S} {write : S → ByteWriting Unit}
    (hwrite : ByteWriting.WritesLiteral write literal) {size : S → ℕ}
    (hsize : literal.HasSizes size) (kind : CodecKind) :
    EncodesSymbolwise tables.book size (codec.encode literal)
      (fun symbols ↦ Statistics.withKind kind (codec.encodeCounted literal symbols))
      (fun symbols ↦ Statistics.withKind kind (codec.encodeIntoBytes write symbols)) := by
  unfold encode encodeCounted encodeIntoBytes
  rw [tables_eq hstage]
  exact Codebook.encodesSymbolwise (h.isNarrow hstage) hwrite hsize kind

/-- A codec for characters and a codec for texts that have the tables of their counts encode symbol
by symbol. Two sequences that follow each other are encoded exactly if each of them is, their bits
follow each other bit for bit, and their statistics are merged. The statistics of a sequence tell
exactly how many symbols have no codeword and how long the stream is, which is the sum of the
lengths of codewords, and for symbols without one of the escape and the literal. Writing into bytes
and counting on the way comes to the same. -/
theorem encoding_isSymbolwise :
    (∀ (codec : CharacterCodec) (tables : Tables Char), codec.codec.IsSound →
      codec.codec.stage = .built tables →
        EncodesSymbolwise tables.book (fun _ ↦ characterBits) codec.encode codec.encodeCounted
          codec.encodeIntoBytes) ∧
    ∀ (codec : TextCodec) (tables : Tables String), codec.IsSound →
      codec.texts.stage = .built tables →
        EncodesSymbolwise tables.book codec.spelledSize codec.encode codec.encodeCounted
          codec.encodeIntoBytes := by
  constructor
  · intro codec tables h hstage
    exact h.encodesSymbolwise hstage ByteWriting.writesLiteral_character
      LiteralWriter.hasSizes_character .character
  · intro codec tables h hstage
    exact h.texts.encodesSymbolwise hstage h.writesLiteral_writeSpelled codec.hasSizes_spell .text

/-- A codec that knows two words and two letters writes two words, and then a third one with a
letter that it does not know. Written together they come to the same, and what they cost is
known. -/
theorem encoding_isSymbolwise_of_words :
    ∃ (codec : TextCodec) (tables : Tables String) (letters : Tables Char),
      codec.IsSound ∧ codec.texts.stage = .built tables ∧
      codec.characters.stage = .built letters ∧
      (∃ stream more statistics others,
        codec.encodeCounted ["b", ""] = .ok (stream, statistics) ∧
        codec.encodeCounted ["z"] = .ok (more, others) ∧
        codec.encodeIntoBytes ["b", "", "z"] = .ok (stream.append more, statistics.merge others) ∧
        statistics.escaped = 1 ∧ others.escaped = 1 ∧
        more.bitLength = tables.book.cost codec.spelledSize "z") ∧
      ∃ stream, CharacterCodec.encode ⟨codec.characters⟩ ['b', 'z'] = .ok stream ∧
        stream.bitLength = letters.book.cost (fun _ ↦ 21) 'b' +
          letters.book.cost (fun _ ↦ 21) 'z' := by
  obtain ⟨hcharacters, htexts⟩ := encoding_isSymbolwise
  have hcodable : Tree.IsCodable ((Frequencies.empty.add "a" 1).add "b" 2) .standard :=
    ⟨by decide, by decide +kernel, by decide +kernel⟩
  have hcodableLetters : Tree.IsCodable ((Frequencies.empty.add 'a' 1).add 'b' 2) .standard :=
    ⟨by decide, by decide +kernel, by decide +kernel⟩
  obtain ⟨texts, characters, hmade, hspelling, hcodec⟩ := TextCodec.exists_ofFrequencies
    (show TextConfig.standard.check = .ok () by decide) (by decide) (by decide +kernel) hcodable
    hcodableLetters
  let codec : TextCodec := ⟨TextConfig.standard.cutoff, texts, characters⟩
  have hsound : codec.IsSound := (TextCodec.Reachable.ofFrequencies hcodec).isSound
  obtain ⟨hown, hconfig, hcounts⟩ := Codec.hasOwnTables_of_ofFrequencies hmade
  obtain ⟨hownLetters, hconfigLetters, _⟩ := Codec.hasOwnTables_of_ofFrequencies hspelling
  obtain ⟨tables, hstage, _⟩ := id hown
  obtain ⟨letters, hstageLetters, _⟩ := id hownLetters
  have htables : codec.texts.stage = .built tables := hstage
  have hescape : codec.texts.HasEscape := hown.hasEscape_iff.mpr (hconfig ▸ rfl)
  have hescapeLetters : codec.characters.HasEscape :=
    hownLetters.hasEscape_iff.mpr (hconfigLetters ▸ rfl)
  have hwords := htexts codec tables hsound htables
  have hletters := hcharacters ⟨characters⟩ letters hownLetters.isSound hstageLetters
  have hcounted (words : List String) :
      ∃ counted, codec.encodeCounted words = .ok counted := by
    have hfails := TextCodec.encode_error_iff htables words
    rw [Outcome.exists_error_iff, not_iff_comm] at hfails
    obtain ⟨stream, hstream⟩ := hfails.mp <| by
      rintro ⟨_, _, _, hcannot | ⟨_, hcannot, _⟩⟩
      · exact hcannot hescape
      · exact hcannot hescapeLetters
    rw [hwords.encode_eq, Outcome.map_eq_ok_iff] at hstream
    exact hstream.imp fun _ hcounted ↦ hcounted.1
  obtain ⟨⟨stream, statistics⟩, hfirst⟩ := hcounted ["b", ""]
  obtain ⟨⟨more, others⟩, hsecond⟩ := hcounted ["z"]
  have hboth := hwords.encodeCounted_append _ _ _ _ _ _ hfirst hsecond
  have hstatistics := hwords.accounts _ _ _ hfirst
  have hmore := hwords.accounts _ _ _ hsecond
  have hlacks (word : String) : tables.book.lacks word = true ↔
      word ∉ ((Frequencies.empty.add "a" 1).add "b" 2).weights := by
    rw [Codec.lacks_iff htables, hown.hasCode_iff, hcounts]
  have hknown : tables.book.lacks "b" = false :=
    Bool.eq_false_iff.mpr ((hlacks "b").not.mpr (by decide +kernel))
  have hblank : tables.book.lacks "" = true := (hlacks "").mpr (by decide +kernel)
  have hother : tables.book.lacks "z" = true := (hlacks "z").mpr (by decide +kernel)
  obtain ⟨spelled, hspelled⟩ : ∃ stream,
      CharacterCodec.encode ⟨characters⟩ ['b', 'z'] = .ok stream := by
    rw [CharacterCodec.encode, Codec.encode_eq hstageLetters, Codebook.exists_encode_iff]
    exact fun letter _ ↦
      (Codec.exists_encodeSymbol_usual_iff hstageLetters).mpr (Or.inr hescapeLetters)
  obtain ⟨counted, hcountedLetters, rfl⟩ :=
    Outcome.map_eq_ok_iff.mp ((hletters.encode_eq _).symm.trans hspelled)
  refine ⟨codec, tables, letters, hsound, htables, hstageLetters,
    ⟨stream, more, statistics, others, hfirst, hsecond, ?_, ?_, ?_, hmore.bitLength_eq⟩,
    counted.1, hspelled, ?_⟩
  · rw [hwords.encodeIntoBytes_eq]
    exact hboth
  · rw [hstatistics.escaped_eq, List.countP_cons_of_neg (Bool.eq_false_iff.mp hknown),
      List.countP_cons_of_pos hblank, List.countP_nil]
  · rw [hmore.escaped_eq, List.countP_cons_of_pos hother, List.countP_nil]
  · exact (hletters.accounts _ _ _ hcountedLetters).bitLength_eq

end HuffmanCoding
