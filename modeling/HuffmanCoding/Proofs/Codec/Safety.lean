import HuffmanCoding.Codec.Characters
import HuffmanCoding.Codec.TextLists
import HuffmanCoding.Proofs.Careful
import HuffmanCoding.Proofs.Codec.Built

/-!
# Decoding whatever comes

The codecs for characters, texts and lists of texts decode with a tally as they decode without it,
and their readers of items are careful (`careful_readSpelled`, `careful_readList`). So decoding is
safe for every stream, whatever its bytes are and whatever numbers it records or holds: it yields
the recorded number of items or reports a fault of the stream, and it begins no more items than the
stream has bits (`decode_isSafe`). Counted are the items of the stream, the texts in its lists, the
characters of spelled texts and the bytes of literals. It does not matter for this whether the
tables are those of the counts.
-/

set_option autoImplicit false
set_option relaxedAutoImplicit false

namespace HuffmanCoding

/-! ### Codecs for symbols -/

/-- A tally shows windows of all widths that a table can have. -/
theorem Tally.isView_cursor_of_table : IsView cursor (UInt8.size - 1) :=
  isView_cursor (by decide)

theorem WindowTable.width_le (table : WindowTable) : table.width.toNat ≤ UInt8.size - 1 :=
  Nat.le_sub_one_of_lt table.width.toNat_lt

namespace Codec

variable {S : Type} [Symbol S] {codec : Codec S} {literal : Tallying S} {stream : PackedStream}

/-- Reads a sequence of symbols, and tells how many items were begun. -/
def tally (codec : Codec S) (literal : Tallying S) (stream : PackedStream) :
    Except Error (List S) × ℕ :=
  match codec.tables with
  | .error error => (.error error, 0)
  | .ok tables => stream.tallyItems (tables.decoder.readSymbol literal)

/-- Symbols are decoded safely if their literals are. -/
theorem isSafe_tally (hbuilt : codec.isBuilt = true) {read : Reading S}
    (hmirrors : Mirrors Tally.cursor literal read)
    (hcareful : literal.Careful stream.bitLength 0 0) :
    (codec.tally literal stream).1 = codec.decode read stream ∧
      stream.IsSafe (codec.decode read stream) (codec.tally literal stream).2 := by
  obtain ⟨tables, hstage⟩ := isBuilt_iff.mp hbuilt
  unfold tally
  rw [tables_eq hstage, decode_eq hstage]
  exact stream.isSafe_decodeItems
    (Tally.isView_cursor_of_table.readSymbol (WindowTable.width_le _) hmirrors)
    (Tallying.careful_readSymbol tables.decoder hcareful)

end Codec

def CharacterCodec.tally (codec : CharacterCodec) (stream : PackedStream) :
    Except Error (List Char) × ℕ :=
  codec.codec.tally Reading.character stream

/-- Characters are decoded safely. -/
theorem CharacterCodec.isSafe_tally {codec : CharacterCodec}
    (hbuilt : codec.codec.isBuilt = true) (stream : PackedStream) :
    (codec.tally stream).1 = codec.decode stream ∧
      stream.IsSafe (codec.decode stream) (codec.tally stream).2 :=
  Codec.isSafe_tally hbuilt Tally.isView_cursor_of_table.character
    (Tallying.careful_character.mono (Nat.zero_le _) (Nat.zero_le _))

/-! ### Codecs for texts -/

namespace TextCodec

variable {codec : TextCodec} {tables : Tables String} {finish : ℕ}

def tally (codec : TextCodec) (stream : PackedStream) : Except Error (List String) × ℕ :=
  codec.texts.tally codec.readSpelled stream

theorem careful_readSpelled : (codec.readSpelled : Tallying String).Careful finish 7 0 := by
  unfold readSpelled
  cases codec.characters.stage.tables? with
  | none => exact Tallying.careful_text
  | some tables =>
    refine Tallying.careful_counted fun count ↦ ?_
    refine Tallying.Careful.bind ?_ fun characters ↦ Tallying.careful_pure _
    refine Tallying.careful_items (fun _ ↦ Tallying.Careful.item ?_) count
    exact Tallying.careful_readSymbol tables.decoder
      (Tallying.careful_character.mono (Nat.zero_le _) (Nat.zero_le _))

theorem careful_readSymbol : (codec.readSymbol tables : Tallying String).Careful finish 1 0 :=
  Tallying.careful_readSymbol tables.decoder
    (careful_readSpelled.mono (Nat.zero_le _) (Nat.zero_le _))

/-- Texts are decoded safely. -/
theorem isSafe_tally (hbuilt : codec.isBuilt = true) (stream : PackedStream) :
    (codec.tally stream).1 = codec.decode stream ∧
      stream.IsSafe (codec.decode stream) (codec.tally stream).2 :=
  Codec.isSafe_tally hbuilt
    (Tally.isView_cursor_of_table.readSpelled fun _ _ ↦ WindowTable.width_le _)
    (careful_readSpelled.mono (Nat.zero_le _) (Nat.zero_le _))

end TextCodec

/-! ### Codecs for lists of texts -/

namespace TextListCodec

variable {codec : TextListCodec} {tables : Tables String} {finish : ℕ}

def tally (codec : TextListCodec) (stream : PackedStream) :
    Except Error (List (List String)) × ℕ :=
  match codec.texts.texts.tables with
  | .error error => (.error error, 0)
  | .ok tables => stream.tallyItems (codec.readList tables)

theorem careful_readList : (codec.readList tables : Tallying (List String)).Careful finish 7 0 :=
  Tallying.careful_counted fun count ↦
    Tallying.careful_items (fun _ ↦ TextCodec.careful_readSymbol.item) count

/-- Lists of texts are decoded safely. -/
theorem isSafe_tally (hbuilt : codec.texts.isBuilt = true) (stream : PackedStream) :
    (codec.tally stream).1 = codec.decode stream ∧
      stream.IsSafe (codec.decode stream) (codec.tally stream).2 := by
  obtain ⟨tables, hstage⟩ := Codec.isBuilt_iff.mp hbuilt
  unfold tally decode
  rw [Codec.tables_eq hstage]
  exact stream.isSafe_decodeItems
    (Tally.isView_cursor_of_table.readList (WindowTable.width_le _)
      fun _ _ ↦ WindowTable.width_le _)
    (careful_readList.mono (by decide) (by decide))

end TextListCodec

/-! ### All codecs -/

/-- Built codecs for characters, texts and lists of texts decode every stream safely: they yield the
recorded number of items, which is then no greater than that of the bits, or stop at a fault of the
stream at a place up to its end; and at any level, they begin no more items than the stream has
bits. -/
theorem decode_isSafe :
    (∀ codec : CharacterCodec, codec.codec.isBuilt = true → ∀ stream : PackedStream,
      (codec.tally stream).1 = codec.decode stream ∧
        stream.IsSafe (codec.decode stream) (codec.tally stream).2) ∧
    (∀ codec : TextCodec, codec.isBuilt = true → ∀ stream : PackedStream,
      (codec.tally stream).1 = codec.decode stream ∧
        stream.IsSafe (codec.decode stream) (codec.tally stream).2) ∧
    ∀ codec : TextListCodec, codec.texts.isBuilt = true → ∀ stream : PackedStream,
      (codec.tally stream).1 = codec.decode stream ∧
        stream.IsSafe (codec.decode stream) (codec.tally stream).2 :=
  ⟨fun _ hbuilt stream ↦ CharacterCodec.isSafe_tally hbuilt stream,
    fun _ hbuilt stream ↦ TextCodec.isSafe_tally hbuilt stream,
    fun _ hbuilt stream ↦ TextListCodec.isSafe_tally hbuilt stream⟩

/-- Sixteen bits that claim to hold almost 2^64 items are refused by codecs for two letters and two
words, after at most sixteen items. -/
theorem decode_isSafe_of_great_claim :
    ∃ (characters : CharacterCodec) (texts : TextCodec) (stream : PackedStream),
      characters.codec.isBuilt = true ∧ texts.isBuilt = true ∧
      texts.characters.isBuilt = true ∧
      stream.bitLength = 16 ∧ stream.symbolCount = 2 ^ 64 - 1 ∧
      (∃ fault offset, characters.decode stream = .error (.malformed fault offset) ∧
        offset ≤ 16 ∧ (characters.tally stream).2 ≤ 16) ∧
      (∃ fault offset, texts.decode stream = .error (.malformed fault offset) ∧
        offset ≤ 16 ∧ (texts.tally stream).2 ≤ 16) ∧
      ∃ fault offset, TextListCodec.decode ⟨texts⟩ stream = .error (.malformed fault offset) ∧
        offset ≤ 16 ∧ (TextListCodec.tally ⟨texts⟩ stream).2 ≤ 16 := by
  obtain ⟨hcharacters, htexts, hlists⟩ := decode_isSafe
  obtain ⟨words, hwords⟩ := (Codec.exists_ofFrequencies_iff
    ((Frequencies.empty.add "a" 1).add "b" 2) .standard).mpr
      ⟨by decide, by decide +kernel, by decide +kernel⟩
  obtain ⟨letters, hletters⟩ := (Codec.exists_ofFrequencies_iff
    ((Frequencies.empty.add 'a' 1).add 'b' 2) .standard).mpr
      ⟨by decide, by decide +kernel, by decide +kernel⟩
  have hbuiltWords := (Codec.hasOwnTables_of_ofFrequencies hwords).1.isBuilt
  have hbuiltLetters := (Codec.hasOwnTables_of_ofFrequencies hletters).1.isBuilt
  let stream : PackedStream := ⟨[255, 255], 16, 2 ^ 64 - 1⟩
  have hclaim : ¬ stream.symbolCount ≤ stream.bitLength := by decide
  have hrefused {α : Type} {decoded : Except Error (List α)} {begun : ℕ}
      (h : stream.IsSafe decoded begun) :
      ∃ fault offset, decoded = .error (.malformed fault offset) ∧ offset ≤ 16 ∧ begun ≤ 16 := by
    rcases h.ok_or_malformed with ⟨_, _, _, hle⟩ | ⟨fault, offset, herror, hoffset⟩
    · exact absurd hle hclaim
    · exact ⟨fault, offset, herror, hoffset, h.begun_le⟩
  exact ⟨⟨letters⟩, ⟨1, words, letters⟩, stream, hbuiltLetters, hbuiltWords, hbuiltLetters,
    rfl, rfl,
    hrefused (hcharacters ⟨letters⟩ hbuiltLetters stream).2,
    hrefused (htexts ⟨1, words, letters⟩ hbuiltWords stream).2,
    hrefused (hlists ⟨⟨1, words, letters⟩⟩ hbuiltWords stream).2⟩

end HuffmanCoding
