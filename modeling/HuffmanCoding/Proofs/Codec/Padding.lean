import HuffmanCoding.Codec.Characters
import HuffmanCoding.Proofs.Bytewise
import HuffmanCoding.Proofs.Codec.Decoding
import HuffmanCoding.Proofs.Codec.Texts

/-!
# Bits behind the recorded end

The last byte of a stream may hold bits behind the recorded end, and bytes may follow it. When a
codec decodes, it looks bits up in five bytes at once, so it comes across these bits all the time.
They are cleared wherever they show: from its bytes a stream is decoded to what its recorded bits
say, by codecs for characters, for texts and for lists of texts, with the same symbols or the same
error at the same place. So streams that share their content are decoded alike
(`decode_ignoresPadding`).

This takes tables with windows of at most 32 bits, and no codec derives any others
(`Codec.IsSound.width_le`).
-/

set_option autoImplicit false
set_option relaxedAutoImplicit false

namespace HuffmanCoding

/-! ### Codecs for symbols -/

namespace Codec

variable {S : Type} [Symbol S] {codec : Codec S}

/-- The windows of derived tables have at most 32 bits. -/
theorem IsSound.width_le (h : codec.IsSound) {tables : Tables S}
    (hstage : codec.stage = .built tables) : tables.decoder.table.width.toNat ≤ 32 := by
  have hderived := Tables.build_eq_ok_iff.mp (h tables hstage)
  have hfull := hderived.isFullWithin
  rw [hfull.window_width, ← hfull.tree_longest]
  exact Tree.longest_le_of_build hderived.tree_eq

/-- Symbols are decoded from bytes as they are from bits if their literals are. -/
theorem IsSound.decodeFromBytes_eq (h : codec.IsSound) {literal : ByteReading S} {read : Reading S}
    (hliteral : literal.Bytewise read) (stream : PackedStream) :
    codec.decodeFromBytes literal stream = codec.decode read stream := by
  unfold decodeFromBytes decode tables
  cases hstage : codec.stage with
  | training frequencies => rfl
  | built tables =>
    exact stream.itemsFromBytes_eq
      (ByteReader.isView_cursor.readSymbol (h.width_le hstage) hliteral)

/-- Streams that share their content are decoded alike. -/
theorem decode_eq_of_sharesContent {first second : PackedStream} (h : first.SharesContent second)
    (read : Reading S) : codec.decode read first = codec.decode read second := by
  unfold decode WindowDecoder.decode
  simp only [h.decodeItems_eq]

end Codec

/-- A way to decode, and the same way as far as it goes from the bytes of a stream: both yield the
same, and streams that share their content make no difference to them. -/
structure IgnoresPadding {α : Type}
    (decode decodeFromBytes : PackedStream → Except Error (List α)) : Prop where
  decodeFromBytes_eq : ∀ stream, decodeFromBytes stream = decode stream
  decode_eq : ∀ first second, first.SharesContent second → decode first = decode second
  bytewise_eq : ∀ first second, first.SharesContent second →
    decodeFromBytes first = decodeFromBytes second

theorem ignoresPadding_of_eq {α : Type}
    {decode decodeFromBytes : PackedStream → Except Error (List α)}
    (heq : ∀ stream, decodeFromBytes stream = decode stream)
    (hshares : ∀ first second, first.SharesContent second → decode first = decode second) :
    IgnoresPadding decode decodeFromBytes := by
  refine ⟨heq, hshares, fun first second h ↦ ?_⟩
  rw [heq, heq, hshares first second h]

/-! ### Codecs for texts -/

namespace TextCodec

variable {codec : TextCodec}

theorem IsSound.bytewise_spelled (h : codec.IsSound) :
    ByteReading.Bytewise codec.readSpelled codec.readSpelled :=
  ByteReader.isView_cursor.readSpelled fun _ ↦ h.characters.width_le

end TextCodec

/-! ### Codecs for lists of texts -/

namespace TextListCodec

variable {codec : TextListCodec}

theorem decodeFromBytes_eq (h : codec.texts.IsSound) (stream : PackedStream) :
    codec.decodeFromBytes stream = codec.decode stream := by
  unfold decodeFromBytes decode Codec.tables
  cases hstage : codec.texts.texts.stage with
  | training frequencies => rfl
  | built tables =>
    exact stream.itemsFromBytes_eq <| ByteReader.isView_cursor.readList (h.texts.width_le hstage)
      fun _ ↦ h.characters.width_le

theorem decode_eq_of_sharesContent {first second : PackedStream} (h : first.SharesContent second) :
    codec.decode first = codec.decode second := by
  unfold decode
  simp only [h.decodeItems_eq]

end TextListCodec

/-! ### All codecs -/

/-- Codecs for characters, texts and lists of texts with tables of their own counts do not see bits
behind the recorded end: although these are looked up together with the others, two streams that
share their content are decoded to the same symbols, or with the same error at the same place. -/
theorem decode_ignoresPadding :
    (∀ codec : CharacterCodec, codec.codec.IsSound →
      IgnoresPadding codec.decode codec.decodeFromBytes) ∧
    (∀ codec : TextCodec, codec.IsSound → IgnoresPadding codec.decode codec.decodeFromBytes) ∧
    ∀ codec : TextListCodec, codec.texts.IsSound →
      IgnoresPadding codec.decode codec.decodeFromBytes :=
  ⟨fun _ h ↦ ignoresPadding_of_eq (h.decodeFromBytes_eq ByteReader.isView_cursor.character)
      fun _ _ hshares ↦ Codec.decode_eq_of_sharesContent hshares _,
    fun _ h ↦ ignoresPadding_of_eq (h.texts.decodeFromBytes_eq h.bytewise_spelled)
      fun _ _ hshares ↦ Codec.decode_eq_of_sharesContent hshares _,
    fun _ h ↦ ignoresPadding_of_eq (TextListCodec.decodeFromBytes_eq h)
      fun _ _ ↦ TextListCodec.decode_eq_of_sharesContent⟩

/-- A stream of three words, one of which is spelled out, is followed by thirteen ones. The codec
still reads the words from it, and codecs for characters and for lists, for which the stream is not
meant, still read from it what they read without the ones. -/
theorem decode_ignoresPadding_of_words :
    ∃ (codec : TextCodec) (words padded : PackedStream),
      codec.IsSound ∧ codec.isBuilt = true ∧ codec.characters.isBuilt = true ∧
      codec.encode ["b", "", "z"] = .ok words ∧
      padded = words.followedBy (List.replicate 13 true) ∧ words.SharesContent padded ∧
      codec.decodeFromBytes padded = .ok ["b", "", "z"] ∧
      CharacterCodec.decodeFromBytes ⟨codec.characters⟩ padded =
        CharacterCodec.decode ⟨codec.characters⟩ words ∧
      TextListCodec.decodeFromBytes ⟨codec⟩ padded = TextListCodec.decode ⟨codec⟩ words := by
  obtain ⟨hcharacters, htexts, hlists⟩ := decode_ignoresPadding
  have hcodable : Tree.IsCodable ((Frequencies.empty.add "a" 1).add "b" 2) .standard :=
    ⟨by decide, by decide +kernel, by decide +kernel⟩
  have hcodableLetters : Tree.IsCodable ((Frequencies.empty.add 'a' 1).add 'b' 2) .standard :=
    ⟨by decide, by decide +kernel, by decide +kernel⟩
  obtain ⟨texts, characters, hmade, hspelling, hcodec⟩ := TextCodec.exists_ofFrequencies
    (show TextConfig.standard.check = .ok () by decide) (by decide) (by decide +kernel) hcodable
    hcodableLetters
  let codec : TextCodec := ⟨TextConfig.standard.cutoff, texts, characters⟩
  have hsound : codec.IsSound := (TextCodec.Reachable.ofFrequencies hcodec).isSound
  obtain ⟨hown, hconfig, _⟩ := Codec.hasOwnTables_of_ofFrequencies hmade
  obtain ⟨hownLetters, hconfigLetters, _⟩ := Codec.hasOwnTables_of_ofFrequencies hspelling
  obtain ⟨tables, hstage, _⟩ := id hown
  have htables : codec.texts.stage = .built tables := hstage
  have hfails := TextCodec.encode_error_iff htables ["b", "", "z"]
  rw [Outcome.exists_error_iff, not_iff_comm] at hfails
  obtain ⟨words, hwords⟩ := hfails.mp <| by
    rintro ⟨_, _, _, hescape | ⟨_, hescape, _⟩⟩
    · exact hescape (hown.hasEscape_iff.mpr (hconfig ▸ rfl))
    · exact hescape (hownLetters.hasEscape_iff.mpr (hconfigLetters ▸ rfl))
  have hdecode := TextCodec.decode_of_encode hsound htables (by decide) hwords
  have hshares := PackedStream.sharesContent_followedBy (hown.bitLength_le hwords)
    (List.replicate 13 true)
  have hwordsSafe := htexts _ hsound
  have hlettersSafe := hcharacters ⟨characters⟩ hownLetters.isSound
  have hlistsSafe := hlists ⟨_⟩ hsound
  refine ⟨_, words, _, hsound, hown.isBuilt, hownLetters.isBuilt, hwords, rfl, hshares, ?_, ?_, ?_⟩
  · rw [hwordsSafe.decodeFromBytes_eq, ← hwordsSafe.decode_eq _ _ hshares, hdecode]
  · rw [hlettersSafe.decodeFromBytes_eq, ← hlettersSafe.decode_eq _ _ hshares]
  · rw [hlistsSafe.decodeFromBytes_eq, ← hlistsSafe.decode_eq _ _ hshares]

end HuffmanCoding
