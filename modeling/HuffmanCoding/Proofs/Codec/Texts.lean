import HuffmanCoding.Proofs.Codec.Reachable
import HuffmanCoding.Proofs.Codec.RoundTrip

/-!
# Composed codecs

A text without a codeword is spelled with its characters, or as its literal where there is no table
of characters, and the reader of spelled texts gives it back (`TextCodec.gives_readSpelled`). The
number of characters that is claimed in front is never too great for the bits behind it, since each
character takes a bit or more. The same goes for the texts in a list.

So a codec for texts fails exactly on the texts that it cannot write, which are those without a
codeword that it cannot escape or cannot spell (`TextCodec.CannotWrite`), and decoding undoes
everything else. Both carry over to lists (`composed_roundTrips`).
-/

set_option autoImplicit false
set_option relaxedAutoImplicit false

namespace HuffmanCoding

namespace TextCodec

/-- The codec has a table of characters that cannot escape and lacks a character of the text. -/
def CannotSpell (codec : TextCodec) (text : String) : Prop :=
  codec.characters.isBuilt = true ∧ ¬ codec.characters.HasEscape ∧
    ∃ character ∈ text.toList, ¬ codec.characters.HasCode character

/-- The codec has no codeword for the text, and it cannot escape texts or cannot spell this one. -/
def CannotWrite (codec : TextCodec) (text : String) : Prop :=
  ¬ codec.texts.HasCode text ∧ (¬ codec.texts.HasEscape ∨ codec.CannotSpell text)

/-! ### Spelling -/

section Spelling

variable {codec : TextCodec}

theorem spell_training {frequencies : Frequencies Char}
    (hstage : codec.characters.stage = .training frequencies) (text : String) :
    codec.spell text = .ok (textLiteral text) := by
  unfold spell
  rw [hstage]
  rfl

theorem spell_built {tables : Tables Char} (hstage : codec.characters.stage = .built tables)
    (text : String) : codec.spell text = do
      let pieces ← text.toList.mapM (tables.book.encodeSymbol LiteralWriter.usual)
      return Bits.ofNumber text.length ++ pieces.flatMap (·.bits) := by
  unfold spell
  rw [hstage]
  rfl

/-- A text is spelled unless its characters are in the way. -/
theorem exists_spell_iff {text : String} :
    (∃ bits, codec.spell text = .ok bits) ↔ ¬ codec.CannotSpell text := by
  cases hstage : codec.characters.stage with
  | training frequencies =>
    refine ⟨?_, fun _ ↦ ⟨_, spell_training hstage text⟩⟩
    rintro _ ⟨hbuilt, _⟩
    obtain ⟨tables, htables⟩ := Codec.isBuilt_iff.mp hbuilt
    rw [hstage] at htables
    cases htables
  | built tables =>
    have hbuilt : codec.characters.isBuilt = true := Codec.isBuilt_iff.mpr ⟨tables, hstage⟩
    have hpieces : (∃ bits, codec.spell text = .ok bits) ↔ ∀ character ∈ text.toList,
        codec.characters.HasCode character ∨ codec.characters.HasEscape := by
      simp only [← Codec.exists_encodeSymbol_usual_iff hstage]
      rw [← Outcome.exists_mapM_eq_ok_iff, spell_built hstage]
      constructor
      · rintro ⟨bits, hbits⟩
        obtain ⟨pieces, hpieces, _⟩ := Outcome.bind_eq_ok_iff.mp hbits
        exact ⟨pieces, hpieces⟩
      · rintro ⟨pieces, hpieces⟩
        exact ⟨_, Outcome.bind_eq_ok_iff.mpr ⟨pieces, hpieces, rfl⟩⟩
    rw [hpieces, CannotSpell]
    constructor
    · rintro hall ⟨_, hescape, character, hmem, hcode⟩
      exact (hall character hmem).elim hcode hescape
    · intro hnot character hmem
      by_contra hcannot
      rw [not_or] at hcannot
      exact hnot ⟨hbuilt, hcannot.2, character, hmem, hcannot.1⟩

/-- A text that was spelled is read back. -/
theorem gives_readSpelled (h : codec.characters.IsSound) {text : String}
    (hstorable : IsStorable text) {bits : Bits} (hbits : codec.spell text = .ok bits) :
    Reading.Gives codec.readSpelled bits text := by
  cases hstage : codec.characters.stage with
  | training frequencies =>
    rw [spell_training hstage] at hbits
    cases hbits
    unfold readSpelled
    rw [hstage]
    exact Reading.gives_text hstorable
  | built tables =>
    have hderived := Tables.build_eq_ok_iff.mp (h tables hstage)
    rw [spell_built hstage] at hbits
    obtain ⟨pieces, hpieces, hpure⟩ := Outcome.bind_eq_ok_iff.mp hbits
    cases hpure
    have hliteral : ∀ character ∈ text.toList, ∀ bits,
        LiteralWriter.usual character = .ok bits →
          Reading.Gives Symbol.readLiteral bits character := by
      intro character _ bits hwritten
      cases hwritten
      exact Reading.gives_character character
    have hspells := hderived.serves.forall₂_spells hderived.isPrefixCode.ofSorted_eq hliteral
      (Outcome.mapM_eq_ok_iff.mp hpieces)
    have hroom := PackedStream.length_le_of_spells hspells
    have hitems : (Reading.items text.toList.length fun _ ↦
        tables.decoder.readSymbol Symbol.readLiteral).Gives _ text.toList :=
      Reading.gives_items (hspells.imp fun _ _ hspell _ ↦ hspell.2)
    rw [String.length_toList] at hroom hitems
    unfold readSpelled
    rw [hstage]
    refine Reading.gives_counted .tooManyCharacters hstorable.length_lt hroom ?_
    refine hitems.finish ?_
    rw [String.ofList_toList]
    exact Reading.gives_pure text

end Spelling

/-! ### Texts -/

section Texts

variable {codec : TextCodec} {tables : Tables String}

/-- The codebook of texts writes what the codec can write. -/
theorem exists_encodeSymbol_iff (h : codec.texts.stage = .built tables) {text : String} :
    (∃ piece, tables.book.encodeSymbol codec.spell text = .ok piece) ↔
      ¬ codec.CannotWrite text := by
  rw [Codebook.exists_encodeSymbol_iff, exists_spell_iff, ← Codec.hasCode_iff h,
    ← Codec.hasEscape_iff h, CannotWrite, not_and_or, not_not, not_or, not_not]

/-- A text that was written is read back, and it takes a bit or more. -/
theorem spells_text (h : codec.IsSound) (hstage : codec.texts.stage = .built tables)
    {texts : List String} (hstorable : ∀ text ∈ texts, IsStorable text)
    {pieces : List EncodedSymbol} (hpieces : List.Forall₂
      (fun text piece ↦ tables.book.encodeSymbol codec.spell text = .ok piece) texts pieces) :
    List.Forall₂ (PackedStream.Spells (codec.readSymbol tables)) (pieces.map (·.bits)) texts := by
  have hderived := Tables.build_eq_ok_iff.mp (h.texts tables hstage)
  refine hderived.serves.forall₂_spells hderived.isPrefixCode.ofSorted_eq ?_ hpieces
  intro text htext bits hbits
  exact gives_readSpelled h.characters (hstorable text htext) hbits

theorem encode_eq (hstage : codec.texts.stage = .built tables) (texts : List String) :
    codec.encode texts = tables.book.encode codec.spell texts :=
  Codec.encode_eq hstage codec.spell texts

/-- Encoding fails on the texts that the codec cannot write. -/
theorem encode_error_iff (h : codec.texts.stage = .built tables) (texts : List String) :
    (∃ error, codec.encode texts = .error error) ↔ ∃ text ∈ texts, codec.CannotWrite text := by
  rw [Outcome.exists_error_iff, encode_eq h, Codebook.exists_encode_iff]
  simp only [exists_encodeSymbol_iff h, not_forall, not_not, exists_prop]

/-- Decoding undoes encoding. -/
theorem decode_of_encode (h : codec.IsSound) (hstage : codec.texts.stage = .built tables)
    {texts : List String} (hstorable : ∀ text ∈ texts, IsStorable text) {stream : PackedStream}
    (hstream : codec.encode texts = .ok stream) : codec.decode stream = .ok texts := by
  have hown := h.texts.hasOwnTables hstage
  have hliteral : ∀ text ∈ texts, ∀ bits, codec.spell text = .ok bits →
      Reading.Gives codec.readSpelled bits text := by
    intro text htext bits hbits
    exact gives_readSpelled h.characters (hstorable text htext) hbits
  exact (hown.restores hliteral hstream).decode_eq

end Texts

end TextCodec

/-! ### Lists of texts -/

/-- Items are written into a stream piece by piece. -/
theorem PackedStream.encodeItems_eq_ok_iff {α : Type} {write : α → Except Error Bits}
    {items : List α} {stream : PackedStream} : encodeItems write items = .ok stream ↔
      ∃ pieces, List.Forall₂ (fun item piece ↦ write item = .ok piece) items pieces ∧
        stream = ofBits pieces.flatten items.length := by
  constructor
  · intro h
    obtain ⟨pieces, hpieces, hpure⟩ := Outcome.bind_eq_ok_iff.mp h
    exact ⟨pieces, Outcome.mapM_eq_ok_iff.mp hpieces, (Except.ok.inj hpure).symm⟩
  · rintro ⟨pieces, hpieces, rfl⟩
    exact Outcome.bind_eq_ok_iff.mpr ⟨pieces, Outcome.mapM_eq_ok_iff.mpr hpieces, rfl⟩

namespace TextListCodec

section Lists

variable {codec : TextListCodec} {tables : Tables String}

theorem encodeList_eq (hstage : codec.texts.texts.stage = .built tables) (list : List String) :
    codec.encodeList list = do
      let pieces ← list.mapM (tables.book.encodeSymbol codec.texts.spell)
      return Bits.ofNumber list.length ++ pieces.flatMap (·.bits) := by
  have hsymbol : codec.texts.encodeSymbol = tables.book.encodeSymbol codec.texts.spell := by
    funext text
    unfold TextCodec.encodeSymbol
    rw [Codec.tables_eq hstage]
    rfl
  unfold encodeList
  rw [hsymbol]

/-- A list can be written unless it has a text that cannot. -/
theorem exists_encodeList_iff (h : codec.texts.texts.stage = .built tables) {list : List String} :
    (∃ bits, codec.encodeList list = .ok bits) ↔
      ∀ text ∈ list, ¬ codec.texts.CannotWrite text := by
  simp only [← TextCodec.exists_encodeSymbol_iff h]
  rw [← Outcome.exists_mapM_eq_ok_iff, encodeList_eq h]
  constructor
  · rintro ⟨bits, hbits⟩
    obtain ⟨pieces, hpieces, _⟩ := Outcome.bind_eq_ok_iff.mp hbits
    exact ⟨pieces, hpieces⟩
  · rintro ⟨pieces, hpieces⟩
    exact ⟨_, Outcome.bind_eq_ok_iff.mpr ⟨pieces, hpieces, rfl⟩⟩

theorem ofNumber_ne_nil (value : ℕ) : Bits.ofNumber value ≠ [] := by
  rw [Bits.ofNumber]
  split_ifs <;> simp [Bits.ofNat]

/-- A list that was written is read back. -/
theorem spells_list (h : codec.texts.IsSound) (hstage : codec.texts.texts.stage = .built tables)
    {list : List String} (hlength : list.length < UInt64.size)
    (hstorable : ∀ text ∈ list, IsStorable text) {bits : Bits}
    (hbits : codec.encodeList list = .ok bits) :
    PackedStream.Spells (codec.readList tables) bits list := by
  rw [encodeList_eq hstage] at hbits
  obtain ⟨pieces, hpieces, hpure⟩ := Outcome.bind_eq_ok_iff.mp hbits
  cases hpure
  have hspells := TextCodec.spells_text h hstage hstorable (Outcome.mapM_eq_ok_iff.mp hpieces)
  refine ⟨fun hnil ↦ ofNumber_ne_nil _ (List.append_eq_nil_iff.mp hnil).1, ?_⟩
  exact Reading.gives_counted .tooManyTexts hlength (PackedStream.length_le_of_spells hspells)
    (Reading.gives_items (hspells.imp fun _ _ hspell _ ↦ hspell.2))

theorem encode_eq (hstage : codec.texts.texts.stage = .built tables) (lists : List (List String)) :
    codec.encode lists = PackedStream.encodeItems codec.encodeList lists := by
  unfold encode
  rw [Codec.tables_eq hstage]
  rfl

/-- Encoding fails on the lists with a text that the codec cannot write. -/
theorem encode_error_iff (h : codec.texts.texts.stage = .built tables)
    (lists : List (List String)) :
    (∃ error, codec.encode lists = .error error) ↔
      ∃ list ∈ lists, ∃ text ∈ list, codec.texts.CannotWrite text := by
  have hwritten : (∃ stream, codec.encode lists = .ok stream) ↔
      ∀ list ∈ lists, ∃ bits, codec.encodeList list = .ok bits := by
    rw [← Outcome.exists_mapM_eq_ok_iff, encode_eq h]
    simp only [PackedStream.encodeItems_eq_ok_iff, Outcome.mapM_eq_ok_iff]
    exact ⟨fun ⟨_, pieces, hpieces, _⟩ ↦ ⟨pieces, hpieces⟩,
      fun ⟨pieces, hpieces⟩ ↦ ⟨_, pieces, hpieces, rfl⟩⟩
  rw [Outcome.exists_error_iff, hwritten]
  simp only [exists_encodeList_iff h, not_forall, not_not, exists_prop]

/-- Lists that were written are read back each. -/
theorem spells_lists (h : codec.texts.IsSound) (hstage : codec.texts.texts.stage = .built tables)
    {lists : List (List String)} {pieces : List Bits}
    (hstorable : ∀ list ∈ lists, list.length < UInt64.size ∧ ∀ text ∈ list, IsStorable text)
    (hpieces : List.Forall₂ (fun list bits ↦ codec.encodeList list = .ok bits) lists pieces) :
    List.Forall₂ (PackedStream.Spells (codec.readList tables)) pieces lists := by
  induction hpieces with
  | nil => exact List.Forall₂.nil
  | @cons list bits lists pieces hbits _ ih =>
    obtain ⟨hlength, htexts⟩ := hstorable list (List.mem_cons_self ..)
    exact List.Forall₂.cons (spells_list h hstage hlength htexts hbits)
      (ih fun other hother ↦ hstorable other (List.mem_cons_of_mem _ hother))

/-- Decoding undoes encoding. -/
theorem decode_of_encode (h : codec.texts.IsSound)
    (hstage : codec.texts.texts.stage = .built tables) {lists : List (List String)}
    (hstorable : ∀ list ∈ lists, list.length < UInt64.size ∧ ∀ text ∈ list, IsStorable text)
    {stream : PackedStream} (hstream : codec.encode lists = .ok stream) :
    codec.decode stream = .ok lists := by
  rw [encode_eq hstage] at hstream
  obtain ⟨pieces, hpieces, rfl⟩ := PackedStream.encodeItems_eq_ok_iff.mp hstream
  have hspells := spells_lists h hstage hstorable hpieces
  unfold decode
  rw [Codec.tables_eq hstage]
  exact PackedStream.decodeItems_ofBits hspells

end Lists

end TextListCodec

/-! ### Both codecs -/

/-- Encoding texts with a codec that has its tables fails exactly on a text that it cannot write,
and decoding undoes it otherwise; encoding lists fails exactly on a list with such a text, and
decoding undoes it otherwise. Texts and lists have to fit into memory. -/
theorem composed_roundTrips :
    (∀ codec : TextCodec, codec.Reachable → codec.isBuilt = true → ∀ texts : List String,
      (∀ text ∈ texts, IsStorable text) →
        ((∃ error, codec.encode texts = .error error) ↔
          ∃ text ∈ texts, codec.CannotWrite text) ∧
        ∀ stream, codec.encode texts = .ok stream → codec.decode stream = .ok texts) ∧
    ∀ codec : TextListCodec, codec.Reachable → codec.texts.isBuilt = true →
      ∀ lists : List (List String),
        (∀ list ∈ lists, list.length < UInt64.size ∧ ∀ text ∈ list, IsStorable text) →
          ((∃ error, codec.encode lists = .error error) ↔
            ∃ list ∈ lists, ∃ text ∈ list, codec.texts.CannotWrite text) ∧
          ∀ stream, codec.encode lists = .ok stream → codec.decode stream = .ok lists := by
  constructor
  · intro codec hreachable hbuilt texts hstorable
    obtain ⟨tables, htables⟩ := Codec.isBuilt_iff.mp hbuilt
    exact ⟨TextCodec.encode_error_iff htables texts,
      fun _ hstream ↦ TextCodec.decode_of_encode hreachable.isSound htables hstorable hstream⟩
  · intro codec hreachable hbuilt lists hstorable
    obtain ⟨tables, htables⟩ := Codec.isBuilt_iff.mp hbuilt
    exact ⟨TextListCodec.encode_error_iff htables lists,
      fun _ hstream ↦ TextListCodec.decode_of_encode hreachable.isSound htables hstorable hstream⟩

/-- A codec that knows two words and two letters writes other words with other letters and lists of
them, and reads them back. -/
theorem composed_roundTrips_of_words :
    ∃ codec : TextCodec, codec.Reachable ∧ codec.isBuilt = true ∧
      codec.characters.isBuilt = true ∧
      (∃ stream, codec.encode ["b", "", "z"] = .ok stream ∧
        codec.decode stream = .ok ["b", "", "z"]) ∧
      ∃ stream, TextListCodec.encode ⟨codec⟩ [["b", "z"], []] = .ok stream ∧
        TextListCodec.decode ⟨codec⟩ stream = .ok [["b", "z"], []] := by
  obtain ⟨htexts, hlists⟩ := composed_roundTrips
  let words := (Frequencies.empty.add "a" 1).add "b" 2
  let letters := (Frequencies.empty.add 'a' 1).add 'b' 2
  obtain ⟨texts, hmade⟩ := (Codec.exists_ofFrequencies_iff words .standard).mpr
    ⟨by decide, by decide +kernel, by decide +kernel⟩
  obtain ⟨characters, hspelling⟩ := (Codec.exists_ofFrequencies_iff letters .standard).mpr
    ⟨by decide, by decide +kernel, by decide +kernel⟩
  have hkept : (words.keepFrequent 1).unheard = .ok words := by
    rw [TextCodec.unheard_keepFrequent, if_pos (Or.inl (by decide))]
  have hcharacters : (TextCodec.ofCharacters letters .standard).unheard = .ok characters := by
    rw [TextCodec.ofCharacters, if_neg (by decide +kernel)]
    exact hspelling
  have hcodec : (TextCodec.ofFrequencies words letters .standard).unheard =
      .ok ⟨1, texts, characters⟩ :=
    TextCodec.ofFrequencies_eq_ok_iff.mpr
      ⟨by decide, words, hkept, texts, hmade, characters, hcharacters, rfl⟩
  have hreachable := TextCodec.Reachable.ofFrequencies hcodec
  obtain ⟨hown, hconfig, _⟩ := Codec.hasOwnTables_of_ofFrequencies hmade
  obtain ⟨hownSpelling, hconfigSpelling, _⟩ := Codec.hasOwnTables_of_ofFrequencies hspelling
  have hwrites (text : String) : ¬ TextCodec.CannotWrite ⟨1, texts, characters⟩ text := by
    rintro ⟨_, hescape | ⟨_, hescape, _⟩⟩
    · exact hescape (hown.hasEscape_iff.mpr (hconfig ▸ rfl))
    · exact hescape (hownSpelling.hasEscape_iff.mpr (hconfigSpelling ▸ rfl))
  obtain ⟨hfails, hrestores⟩ := htexts _ hreachable hown.isBuilt ["b", "", "z"] (by decide)
  obtain ⟨hlistFails, hlistRestores⟩ :=
    hlists ⟨_⟩ (.ofTexts hreachable) hown.isBuilt [["b", "z"], []] (by decide)
  rw [Outcome.exists_error_iff, not_iff_comm] at hfails hlistFails
  obtain ⟨stream, hstream⟩ := hfails.mp fun ⟨text, _, hcannot⟩ ↦ hwrites text hcannot
  obtain ⟨listStream, hlistStream⟩ :=
    hlistFails.mp fun ⟨list, _, text, _, hcannot⟩ ↦ hwrites text hcannot
  exact ⟨⟨1, texts, characters⟩, hreachable, hown.isBuilt, hownSpelling.isBuilt,
    ⟨stream, hstream, hrestores stream hstream⟩,
    ⟨listStream, hlistStream, hlistRestores listStream hlistStream⟩⟩

end HuffmanCoding
