import HuffmanCoding.Proofs.Codec.Decoding
import HuffmanCoding.Proofs.Codec.Safety
import HuffmanCoding.Proofs.Codec.Texts

/-!
# Streams with damaged numbers

What a codec encodes is spelled by a grammar in which the end of each item shows, at every level: of
the codewords, of the numbers, of the literals and of the lists. So none of the streams with the
same bytes and another length or another number of items encodes anything, and a decoder, which
yields nothing that is not encoded, refuses them (`decode_eq_malformed_of_isDamaged`).

For this the grammars may have more spellings than the decoders take. A text has its characters or
its bytes behind their number (`TextCodec.spelled`), and here a number may have any number of
groups, since a writer does not care about the greatest number that a reader takes.
-/

set_option autoImplicit false
set_option relaxedAutoImplicit false

namespace HuffmanCoding

/-! ### Codecs for symbols -/

namespace Codec

variable {S : Type} [Symbol S] {codec : Codec S} {literal : Grammar S} {write : LiteralWriter S}
  {read : Reading S} {symbols : List S} {stream damaged : PackedStream}

/-- What a codec encodes is spelled by its grammar. -/
theorem HasOwnTables.encodes_of_encode (h : codec.HasOwnTables)
    (hwrite : ∀ symbol bits, write symbol = .ok bits → literal bits symbol)
    (hstream : codec.encode write symbols = .ok stream) :
    stream.Encodes (codec.grammar literal) symbols := by
  obtain ⟨tables, hstage, _⟩ := h.exists_isDerived
  rw [encode_eq hstage] at hstream
  obtain ⟨pieces, hpieces, rfl⟩ := Codebook.encode_eq_ok_iff.mp hstream
  rw [grammar_eq hstage]
  refine ⟨rfl, pieces.map (·.bits), ?_, ?_⟩
  · rw [List.forall₂_map_left_iff]
    exact (hpieces.imp fun symbol _ hpiece ↦
      Codebook.grammar_of_encodeSymbol (hwrite symbol) hpiece).flip
  · rw [PackedStream.content_ofBits, List.flatMap_def]

/-- A codec does not decode a damaged stream, if the end of a literal shows. -/
theorem HasOwnTables.decode_ne_ok (h : codec.HasOwnTables) (hself : literal.IsSelfDelimiting)
    (hwrite : ∀ symbol bits, write symbol = .ok bits → literal bits symbol)
    (hread : read.Obeys literal) (hstream : codec.encode write symbols = .ok stream)
    (hdamaged : stream.IsDamaged damaged) (others : List S) :
    codec.decode read damaged ≠ .ok others := by
  obtain ⟨tables, hstage, hderived⟩ := h.exists_isDerived
  have hencodes := h.encodes_of_encode hwrite hstream
  rw [grammar_eq hstage] at hencodes
  rw [decode_eq hstage]
  exact hdamaged.decodeItems_ne_ok (hderived.isPrefixCode.isSelfDelimiting_grammar hself)
    (hderived.isPrefixCode.takesBits_grammar literal)
    (hderived.serves.obeys_readSymbol hderived.isPrefixCode hread) (h.bitLength_le hstream)
    hencodes others

end Codec

/-- Characters that were encoded are not decoded from a damaged stream. -/
theorem CharacterCodec.decode_ne_ok {codec : CharacterCodec} (h : codec.codec.HasOwnTables)
    {characters : List Char} {stream damaged : PackedStream}
    (hstream : codec.encode characters = .ok stream) (hdamaged : stream.IsDamaged damaged)
    (others : List Char) : codec.decode damaged ≠ .ok others := by
  refine h.decode_ne_ok Grammar.isSelfDelimiting_character ?_ Reading.accepts_character.obeys
    hstream hdamaged others
  intro letter bits hbits
  cases hbits
  rfl

/-! ### Codecs for texts -/

namespace TextCodec

variable {codec : TextCodec} {tables : Tables String}

/-- A text is spelled by its characters, or by its bytes if there is no table of characters. Either
stand behind their number. -/
def spelled (codec : TextCodec) : Grammar String := fun bits text ↦
  match codec.characters.stage.tables? with
  | none => Grammar.byte.counted bits (Utf8.encode text)
  | some tables => (tables.book.grammar Grammar.character).counted bits text.toList

theorem spelled_training {frequencies : Frequencies Char}
    (hstage : codec.characters.stage = .training frequencies) :
    codec.spelled = fun bits text ↦ Grammar.byte.counted bits (Utf8.encode text) := by
  unfold spelled
  rw [hstage]
  rfl

theorem spelled_built {tables : Tables Char} (hstage : codec.characters.stage = .built tables) :
    codec.spelled = fun bits text ↦
      (tables.book.grammar Grammar.character).counted bits text.toList := by
  unfold spelled
  rw [hstage]
  rfl

/-- The end of a spelled text shows. -/
theorem isSelfDelimiting_spelled (h : codec.characters.IsSound) :
    codec.spelled.IsSelfDelimiting := by
  cases hstage : codec.characters.stage with
  | training frequencies =>
    rw [spelled_training hstage]
    intro first second whole text other hfirst hsecond
    exact Grammar.isSelfDelimiting_byte.counted hfirst hsecond
  | built tables =>
    have hderived := Tables.build_eq_ok_iff.mp (h tables hstage)
    have hcharacter := hderived.isPrefixCode.isSelfDelimiting_grammar
      Grammar.isSelfDelimiting_character
    rw [spelled_built hstage]
    intro first second whole text other hfirst hsecond
    exact hcharacter.counted hfirst hsecond

/-- A text is spelled as it is written. -/
theorem spelled_of_spell {text : String} {bits : Bits} (hbits : codec.spell text = .ok bits) :
    codec.spelled bits text := by
  cases hstage : codec.characters.stage with
  | training frequencies =>
    rw [spell_training hstage] at hbits
    cases hbits
    rw [spelled_training hstage]
    exact Grammar.counted_byte_textLiteral text
  | built tables =>
    rw [spell_built hstage] at hbits
    obtain ⟨pieces, hpieces, hpure⟩ := Outcome.bind_eq_ok_iff.mp hbits
    cases hpure
    rw [spelled_built hstage, List.flatMap_def, ← String.length_toList]
    refine Grammar.counted_ofNumber ?_
    rw [List.forall₂_map_left_iff]
    refine ((Outcome.mapM_eq_ok_iff.mp hpieces).imp fun letter _ hpiece ↦ ?_).flip
    refine Codebook.grammar_of_encodeSymbol (fun bits hbits ↦ ?_) hpiece
    cases hbits
    rfl

/-- A text is read as it is spelled. -/
theorem obeys_readSpelled (h : codec.characters.IsSound) :
    Reading.Obeys codec.readSpelled codec.spelled := by
  unfold readSpelled
  cases hstage : codec.characters.stage with
  | training frequencies =>
    rw [spelled_training hstage]
    exact Reading.accepts_text.obeys.mono fun _ _ ↦ Grammar.counted_byte_of_text
  | built tables =>
    have hderived := Tables.build_eq_ok_iff.mp (h tables hstage)
    have hread := hderived.serves.obeys_readSymbol hderived.isPrefixCode
      Reading.accepts_character.obeys
    rw [spelled_built hstage]
    refine Reading.obeys_counted .tooManyCharacters fun piece count hpiece ↦ ?_
    refine (Reading.obeys_items (fun _ ↦ hread) count).bind fun more letters hmore ↦ ?_
    apply Reading.obeys_pure
    obtain ⟨rfl, pieces, hpieces, rfl⟩ := hmore
    rw [List.append_nil, String.toList_ofList]
    exact ⟨10, piece, pieces, hpiece.1, hpieces, rfl⟩

/-- A codec that can escape texts and characters can write every text. -/
theorem not_cannotWrite (htexts : codec.texts.HasEscape) (hcharacters : codec.characters.HasEscape)
    (text : String) : ¬ codec.CannotWrite text := by
  intro hcannot
  obtain ⟨_, hescape | hspelling⟩ := hcannot
  · exact hescape htexts
  · exact hspelling.2.1 hcharacters

/-- Texts that were encoded are not decoded from a damaged stream. -/
theorem decode_ne_ok (h : codec.IsSound) (hstage : codec.texts.stage = .built tables)
    {texts : List String} {stream damaged : PackedStream}
    (hstream : codec.encode texts = .ok stream) (hdamaged : stream.IsDamaged damaged)
    (others : List String) : codec.decode damaged ≠ .ok others :=
  (h.texts.hasOwnTables hstage).decode_ne_ok (isSelfDelimiting_spelled h.characters)
    (fun _ _ ↦ spelled_of_spell) (obeys_readSpelled h.characters) hstream hdamaged others

end TextCodec

/-! ### Codecs for lists of texts -/

namespace TextListCodec

variable {codec : TextListCodec} {tables : Tables String}

/-- A list is spelled as it is written. -/
theorem counted_of_encodeList (hstage : codec.texts.texts.stage = .built tables)
    {list : List String} {bits : Bits} (hbits : codec.encodeList list = .ok bits) :
    (tables.book.grammar codec.texts.spelled).counted bits list := by
  rw [encodeList_eq hstage] at hbits
  obtain ⟨pieces, hpieces, hpure⟩ := Outcome.bind_eq_ok_iff.mp hbits
  cases hpure
  rw [List.flatMap_def]
  refine Grammar.counted_ofNumber ?_
  rw [List.forall₂_map_left_iff]
  exact ((Outcome.mapM_eq_ok_iff.mp hpieces).imp fun text _ hpiece ↦
    Codebook.grammar_of_encodeSymbol (fun _ ↦ TextCodec.spelled_of_spell) hpiece).flip

/-- A list is read as it is spelled. -/
theorem obeys_readList (h : codec.texts.IsSound)
    (hstage : codec.texts.texts.stage = .built tables) :
    Reading.Obeys (codec.readList tables) (tables.book.grammar codec.texts.spelled).counted := by
  have hderived := Tables.build_eq_ok_iff.mp (h.texts tables hstage)
  have hread := hderived.serves.obeys_readSymbol hderived.isPrefixCode
    (TextCodec.obeys_readSpelled h.characters)
  refine Reading.obeys_counted .tooManyTexts fun piece count hpiece ↦ ?_
  refine (Reading.obeys_items (fun _ ↦ hread) count).mono fun more texts hmore ↦ ?_
  obtain ⟨rfl, pieces, hpieces, rfl⟩ := hmore
  exact ⟨10, piece, pieces, hpiece.1, hpieces, rfl⟩

/-- Lists that were encoded are not decoded from a damaged stream. -/
theorem decode_ne_ok (h : codec.texts.IsSound) (hstage : codec.texts.texts.stage = .built tables)
    {lists : List (List String)} {stream damaged : PackedStream}
    (hstream : codec.encode lists = .ok stream) (hdamaged : stream.IsDamaged damaged)
    (others : List (List String)) : codec.decode damaged ≠ .ok others := by
  have hderived := Tables.build_eq_ok_iff.mp (h.texts tables hstage)
  have hself := hderived.isPrefixCode.isSelfDelimiting_grammar
    (TextCodec.isSelfDelimiting_spelled h.characters)
  rw [encode_eq hstage] at hstream
  obtain ⟨pieces, hpieces, rfl⟩ := PackedStream.encodeItems_eq_ok_iff.mp hstream
  have hencodes : (PackedStream.ofBits pieces.flatten lists.length).Encodes
      (tables.book.grammar codec.texts.spelled).counted lists := by
    refine ⟨rfl, pieces, ?_, PackedStream.content_ofBits _ _⟩
    exact (hpieces.imp fun _ _ hbits ↦ counted_of_encodeList hstage hbits).flip
  unfold decode
  rw [Codec.tables_eq hstage]
  exact hdamaged.decodeItems_ne_ok hself.counted (Grammar.takesBits_counted _)
    (obeys_readList h hstage) (PackedStream.bitLength_ofBits_le _ _) hencodes others

end TextListCodec

/-! ### All codecs -/

/-- A stream that is decoded safely, but not to items, has a fault. -/
theorem PackedStream.IsSafe.eq_malformed {α : Type} {stream : PackedStream}
    {decoded : Except Error (List α)} {begun : ℕ} (h : stream.IsSafe decoded begun)
    (hne : ∀ items, decoded ≠ .ok items) :
    ∃ fault offset, decoded = .error (.malformed fault offset) := by
  rcases h.ok_or_malformed with ⟨items, hitems, _⟩ | ⟨fault, offset, herror, _⟩
  · exact absurd hitems (hne items)
  · exact ⟨fault, offset, herror⟩

/-- Built codecs for characters, texts and lists of texts, with the tables of their counts as all
codecs that come about have them, refuse a stream with the bytes that they wrote as soon as exactly
one of its recorded length and its recorded number of items was changed, and they report a fault of
the stream. -/
theorem decode_eq_malformed_of_isDamaged :
    (∀ codec : CharacterCodec, codec.codec.IsSound → codec.codec.isBuilt = true →
      ∀ (characters : List Char) (stream damaged : PackedStream),
        codec.encode characters = .ok stream → stream.IsDamaged damaged →
          ∃ fault offset, codec.decode damaged = .error (.malformed fault offset)) ∧
    (∀ codec : TextCodec, codec.IsSound → codec.isBuilt = true →
      ∀ (texts : List String) (stream damaged : PackedStream),
        codec.encode texts = .ok stream → stream.IsDamaged damaged →
          ∃ fault offset, codec.decode damaged = .error (.malformed fault offset)) ∧
    ∀ codec : TextListCodec, codec.texts.IsSound → codec.texts.isBuilt = true →
      ∀ (lists : List (List String)) (stream damaged : PackedStream),
        codec.encode lists = .ok stream → stream.IsDamaged damaged →
          ∃ fault offset, codec.decode damaged = .error (.malformed fault offset) := by
  refine ⟨?_, ?_, ?_⟩
  · intro codec hsound hbuilt characters stream damaged hstream hdamaged
    obtain ⟨tables, hstage⟩ := Codec.isBuilt_iff.mp hbuilt
    exact (CharacterCodec.isSafe_tally hbuilt damaged).2.eq_malformed
      (CharacterCodec.decode_ne_ok (hsound.hasOwnTables hstage) hstream hdamaged)
  · intro codec hsound hbuilt texts stream damaged hstream hdamaged
    obtain ⟨tables, hstage⟩ := Codec.isBuilt_iff.mp hbuilt
    exact (TextCodec.isSafe_tally hbuilt damaged).2.eq_malformed
      (TextCodec.decode_ne_ok hsound hstage hstream hdamaged)
  · intro codec hsound hbuilt lists stream damaged hstream hdamaged
    obtain ⟨tables, hstage⟩ := Codec.isBuilt_iff.mp hbuilt
    exact (TextListCodec.isSafe_tally hbuilt damaged).2.eq_malformed
      (TextListCodec.decode_ne_ok hsound hstage hstream hdamaged)

/-- Codecs for two letters and two words refuse what they wrote with a longer length, with one more
text and without the only list. -/
theorem decode_eq_malformed_of_changed_number :
    ∃ (characters : CharacterCodec) (texts : TextCodec) (letters words list : PackedStream),
      characters.codec.IsSound ∧ characters.codec.isBuilt = true ∧
      texts.IsSound ∧ texts.isBuilt = true ∧
      characters.encode ['b', 'z', 'a'] = .ok letters ∧
      (∃ fault offset, characters.decode { letters with bitLength := letters.bitLength + 1 } =
        .error (.malformed fault offset)) ∧
      texts.encode ["b", "", "z"] = .ok words ∧
      (∃ fault offset, texts.decode { words with symbolCount := 4 } =
        .error (.malformed fault offset)) ∧
      TextListCodec.encode ⟨texts⟩ [["b", "z"]] = .ok list ∧
      ∃ fault offset, TextListCodec.decode ⟨texts⟩ { list with symbolCount := 0 } =
        .error (.malformed fault offset) := by
  obtain ⟨hcharacters, htexts, hlists⟩ := decode_eq_malformed_of_isDamaged
  obtain ⟨wordCodec, hwords⟩ := (Codec.exists_ofFrequencies_iff
    ((Frequencies.empty.add "a" 1).add "b" 2) .standard).mpr
      ⟨by decide, by decide +kernel, by decide +kernel⟩
  obtain ⟨letterCodec, hletters⟩ := (Codec.exists_ofFrequencies_iff
    ((Frequencies.empty.add 'a' 1).add 'b' 2) .standard).mpr
      ⟨by decide, by decide +kernel, by decide +kernel⟩
  obtain ⟨hown, hconfig, _⟩ := Codec.hasOwnTables_of_ofFrequencies hwords
  obtain ⟨hownLetters, hconfigLetters, _⟩ := Codec.hasOwnTables_of_ofFrequencies hletters
  obtain ⟨tables, hstage, _⟩ := hown.exists_isDerived
  let texts : TextCodec := ⟨1, wordCodec, letterCodec⟩
  have hsound : texts.IsSound := ⟨hown.isSound, hownLetters.isSound⟩
  have htables : texts.texts.stage = .built tables := hstage
  have hwrites (text : String) : ¬ texts.CannotWrite text :=
    TextCodec.not_cannotWrite (hown.hasEscape_iff.mpr (hconfig ▸ rfl))
      (hownLetters.hasEscape_iff.mpr (hconfigLetters ▸ rfl)) text
  have hround := hownLetters.roundTrips_characters ['b', 'z', 'a']
  obtain ⟨letters, hencoded⟩ := hround.encode_ok_iff.mpr (Or.inl (hconfigLetters ▸ rfl))
  have hfails := TextCodec.encode_error_iff htables ["b", "", "z"]
  have hlistFails := @TextListCodec.encode_error_iff ⟨texts⟩ tables htables [["b", "z"]]
  rw [Outcome.exists_error_iff, not_iff_comm] at hfails hlistFails
  obtain ⟨words, hencodedWords⟩ := hfails.mp fun ⟨text, _, hcannot⟩ ↦ hwrites text hcannot
  obtain ⟨list, hencodedList⟩ :=
    hlistFails.mp fun ⟨list, _, text, _, hcannot⟩ ↦ hwrites text hcannot
  have hcount : words.symbolCount = 3 :=
    (hown.encodes_of_encode (fun _ _ ↦ TextCodec.spelled_of_spell) hencodedWords).count_eq.symm
  have hlistCount : list.symbolCount = 1 := by
    rw [TextListCodec.encode_eq htables] at hencodedList
    obtain ⟨pieces, _, rfl⟩ := PackedStream.encodeItems_eq_ok_iff.mp hencodedList
    rfl
  refine ⟨⟨letterCodec⟩, texts, letters, words, list, hownLetters.isSound, hownLetters.isBuilt,
    hsound, hown.isBuilt, hencoded, ?_, hencodedWords, ?_, hencodedList, ?_⟩
  · exact hcharacters ⟨letterCodec⟩ hownLetters.isSound hownLetters.isBuilt _ letters _ hencoded
      ⟨rfl, Or.inl ⟨Nat.succ_ne_self _, rfl⟩⟩
  · refine htexts texts hsound hown.isBuilt _ words _ hencodedWords ⟨rfl, Or.inr ⟨rfl, ?_⟩⟩
    rw [hcount]
    exact (by decide : 4 ≠ 3)
  · refine hlists ⟨texts⟩ hsound hown.isBuilt _ list _ hencodedList ⟨rfl, Or.inr ⟨rfl, ?_⟩⟩
    rw [hlistCount]
    exact Nat.zero_ne_one

end HuffmanCoding
