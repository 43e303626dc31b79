import HuffmanCoding.Proofs.Codec.Built
import HuffmanCoding.Proofs.LiteralMemory
import HuffmanCoding.Proofs.Literals
import HuffmanCoding.Proofs.PackedStream
import HuffmanCoding.Proofs.Quoted

/-!
# Decoding undoes encoding

A codec that was built restores every sequence of symbols that it encodes, whatever the form of the
literals, as long as their reader gives back what their writer wrote (`HasOwnTables.restores`). A
writer of literals may look at the place where it writes, and it may keep a memory, and so may their
reader (`HasOwnTables.restoresWithMemory`). With the usual literals a sequence is encoded exactly if
the codec can escape or each symbol has a codeword, and a failure names the first symbol that has
none (`HasOwnTables.roundTrips`). All of this holds for characters and for texts
(`codec_roundTrips`).
-/

set_option autoImplicit false
set_option relaxedAutoImplicit false

namespace HuffmanCoding

variable {S : Type} [Symbol S]

namespace Codec

/-- Decoding a stream yields the symbols and ends exactly at the recorded end. -/
structure Restores (codec : Codec S) (read : Reading S) (symbols : List S)
    (stream : PackedStream) : Prop where
  decode_eq : codec.decode read stream = .ok symbols
  symbolCount_eq : stream.symbolCount = symbols.length
  ends : ∃ tables start finish, codec.stage = .built tables ∧
    BitCursor.ofBytes stream.bytes stream.bitLength = .ok start ∧
    (PackedStream.readItems (tables.decoder.readSymbol read) stream.symbolCount).run start =
      .ok symbols finish ∧ finish.position = stream.bitLength

/-- Encoding fails on nothing but a symbol without a codeword that cannot be escaped, and the error
quotes the first such symbol in the way in which no other symbol is quoted. Decoding undoes
encoding. -/
structure RoundTrips (codec : Codec S) (write : LiteralWriter S) (read : Reading S)
    (symbols : List S) : Prop where
  encode_ok_iff : (∃ stream, codec.encode write symbols = .ok stream) ↔
    codec.config.hasEscape = true ∨ ∀ symbol ∈ symbols, codec.HasCode symbol
  encode_error : ∀ error, codec.encode write symbols = .error error →
    ∃ before symbol after, symbols = before ++ symbol :: after ∧
      (∀ other ∈ before, codec.HasCode other) ∧ ¬ codec.HasCode symbol ∧
      error = .unencodable (Symbol.quoted symbol) ∧
      ∀ other : S, Symbol.quoted other = Symbol.quoted symbol → other = symbol
  restores : ∀ stream, codec.encode write symbols = .ok stream →
    codec.Restores read symbols stream

/-- Decoding a stream with a reader of literals that begins with a memory yields the symbols and
ends exactly at the recorded end. -/
structure RestoresWithMemory {τ : Type} (codec : Codec S) (read : StateT τ Reading S) (memory : τ)
    (symbols : List S) (stream : PackedStream) : Prop where
  decode_eq : codec.decodeWithMemory read memory stream = .ok symbols
  symbolCount_eq : stream.symbolCount = symbols.length
  ends : ∃ tables start later finish, codec.stage = .built tables ∧
    BitCursor.ofBytes stream.bytes stream.bitLength = .ok start ∧
    ((PackedStream.readItems (tables.decoder.readSymbol read) stream.symbolCount).run memory).run
      start = .ok (symbols, later) finish ∧ finish.position = stream.bitLength

/-! ### Restoring -/

/-- A built codec restores what it encoded, if the reader of literals gives back what their writer
wrote. -/
theorem HasOwnTables.restores {codec : Codec S} (h : codec.HasOwnTables) {write : LiteralWriter S}
    {read : Reading S} {symbols : List S}
    (hliteral : ∀ symbol ∈ symbols, ∀ bits, write symbol = .ok bits → read.Gives bits symbol)
    {stream : PackedStream} (hstream : codec.encode write symbols = .ok stream) :
    codec.Restores read symbols stream := by
  obtain ⟨tables, hstage, hderived⟩ := h.exists_isDerived
  rw [encode_eq hstage] at hstream
  obtain ⟨pieces, hpieces, rfl⟩ := Codebook.encode_eq_ok_iff.mp hstream
  have hspells := hderived.serves.forall₂_spells hderived.isPrefixCode.ofSorted_eq hliteral hpieces
  refine ⟨?_, rfl, tables, _, _, hstage, PackedStream.ofBytes_ofBits _ _,
    PackedStream.run_readItems hspells rfl, ?_⟩
  · rw [decode_eq hstage]
    exact PackedStream.decodeItems_ofBits hspells
  · show 0 + min (pieces.flatMap (·.bits)).length (pieces.flatMap (·.bits)).length = _
    rw [Nat.min_self, Nat.zero_add]
    rfl

/-- A built codec restores what it encoded with literals that have a memory, if their reader gives
back what their writer wrote as long as the memories agree, and these agree in the beginning. -/
theorem HasOwnTables.restoresWithMemory {ρ τ : Type} {codec : Codec S} (h : codec.HasOwnTables)
    {agree : ρ → τ → Prop} {write : S → StateT ρ ByteWriting Unit} {read : StateT τ Reading S}
    {symbols : List S}
    (hliteral : ∀ symbol ∈ symbols, ByteWriting.IsReadBack agree (write symbol) read symbol)
    {memory : ρ} {kept : τ} (hagree : agree memory kept) {stream : PackedStream}
    {statistics : Statistics}
    (hstream : codec.encodeWithMemory write memory symbols = .ok (stream, statistics)) :
    codec.RestoresWithMemory read kept symbols stream := by
  obtain ⟨tables, hstage, hderived⟩ := h.exists_isDerived
  have hencode : codec.encodeWithMemory write memory symbols =
      tables.book.encodeWithMemory write memory symbols := by
    rw [encodeWithMemory, tables_eq hstage]
    rfl
  rw [hencode] at hstream
  obtain ⟨bits, later, rfl, hrun⟩ := hderived.serves.readsBack_encodeWithMemory
    hderived.isPrefixCode.ofSorted_eq hderived.isNarrow hliteral hagree hstream
  refine ⟨?_, rfl, tables, _, later, _, hstage, PackedStream.ofBytes_ofBits _ _, hrun, ?_⟩
  · rw [decodeWithMemory, tables_eq hstage]
    exact Outcome.bind_eq_ok_iff.mpr ⟨tables, rfl, Outcome.bind_eq_ok_iff.mpr
      ⟨_, PackedStream.ofBytes_ofBits _ _, Reading.outcome_run'_eq hrun⟩⟩
  · show 0 + min bits.length bits.length = _
    rw [Nat.min_self, Nat.zero_add]
    rfl

/-! ### Usual literals -/

/-- With literals that are always there, a symbol is encoded if it has a codeword or can be
escaped. -/
theorem exists_encodeSymbol_usual_iff {codec : Codec S} {tables : Tables S}
    (h : codec.stage = .built tables) {symbol : S} :
    (∃ piece, tables.book.encodeSymbol LiteralWriter.usual symbol = .ok piece) ↔
      codec.HasCode symbol ∨ codec.HasEscape := by
  rw [Codebook.exists_encodeSymbol_iff, hasCode_iff h, hasEscape_iff h]
  exact or_congr_right (and_iff_left ⟨_, rfl⟩)

/-- A built codec round-trips the symbols whose literals can be read back. -/
theorem HasOwnTables.roundTrips {codec : Codec S} (h : codec.HasOwnTables) {symbols : List S}
    (hquoted : Function.Injective (Symbol.quoted : S → String))
    (hliteral : ∀ symbol ∈ symbols,
      Reading.Gives Symbol.readLiteral (Symbol.literal symbol) symbol) :
    codec.RoundTrips LiteralWriter.usual Symbol.readLiteral symbols := by
  obtain ⟨tables, hstage, _⟩ := h.exists_isDerived
  have hencode := encode_eq hstage LiteralWriter.usual symbols
  have hsymbol (symbol : S) : (∃ piece,
      tables.book.encodeSymbol LiteralWriter.usual symbol = .ok piece) ↔
        codec.HasCode symbol ∨ codec.HasEscape :=
    exists_encodeSymbol_usual_iff hstage
  refine ⟨?_, ?_, fun stream hstream ↦ h.restores ?_ hstream⟩
  · rw [hencode, Codebook.exists_encode_iff, ← h.hasEscape_iff]
    simp only [hsymbol]
    constructor
    · intro hall
      by_cases hescape : codec.HasEscape
      · exact Or.inl hescape
      · exact Or.inr fun symbol hmem ↦ (hall symbol hmem).resolve_right hescape
    · rintro (hescape | hall) symbol hmem
      · exact Or.inr hescape
      · exact Or.inl (hall symbol hmem)
  · intro error herror
    rw [hencode] at herror
    obtain ⟨before, symbol, after, rfl, hbefore, hfails⟩ := Codebook.encode_eq_error herror
    obtain ⟨hnone, ⟨hescape, rfl⟩ | ⟨_, hwrite⟩⟩ := Codebook.encodeSymbol_eq_error hfails
    · refine ⟨before, symbol, after, rfl, fun other hother ↦ ?_, ?_, rfl,
        fun other hother ↦ hquoted hother⟩
      · refine ((hsymbol other).mp (hbefore other hother)).resolve_right ?_
        rw [Codec.hasEscape_iff hstage, hescape]
        exact Bool.false_ne_true
      · rw [Codec.hasCode_iff hstage, hnone]
        exact Bool.false_ne_true
    · cases hwrite
  · rintro symbol hmem bits hbits
    cases hbits
    exact hliteral symbol hmem

/-- Without an escape the first symbol that has no codeword makes the encoding fail, and the error
quotes it. -/
theorem RoundTrips.encode_eq_error {codec : Codec S} {write : LiteralWriter S} {read : Reading S}
    {before after : List S} {symbol : S}
    (h : codec.RoundTrips write read (before ++ symbol :: after))
    (hescape : ¬ codec.config.hasEscape = true) (hbefore : ∀ other ∈ before, codec.HasCode other)
    (hsymbol : ¬ codec.HasCode symbol) :
    codec.encode write (before ++ symbol :: after) =
      .error (.unencodable (Symbol.quoted symbol)) := by
  obtain ⟨error, herror⟩ : ∃ error,
      codec.encode write (before ++ symbol :: after) = .error error := by
    rw [Outcome.exists_error_iff, h.encode_ok_iff]
    rintro (hyes | hall)
    · exact hescape hyes
    · exact hsymbol (hall symbol (List.mem_append_right _ (List.mem_cons_self ..)))
  obtain ⟨before', symbol', after', hsplit, hbefore', hsymbol', rfl, _⟩ :=
    h.encode_error error herror
  classical
  have hfirst {before after : List S} {symbol : S}
      (hbefore : ∀ other ∈ before, codec.HasCode other) (hsymbol : ¬ codec.HasCode symbol) :
      (before ++ symbol :: after).find? (fun other ↦ ¬ codec.HasCode other) = some symbol :=
    List.find?_eq_some_iff_append.mpr ⟨by simpa using hsymbol, before, after, rfl,
      fun other hother ↦ by simpa using hbefore other hother⟩
  have hsame : (before ++ symbol :: after).find? (fun other ↦ ¬ codec.HasCode other) =
      some symbol := hfirst hbefore hsymbol
  rw [hsplit, hfirst hbefore' hsymbol'] at hsame
  rw [herror, Option.some.inj hsame]

/-! ### Characters and texts -/

theorem HasOwnTables.roundTrips_characters {codec : Codec Char} (h : codec.HasOwnTables)
    (symbols : List Char) : codec.RoundTrips LiteralWriter.usual Symbol.readLiteral symbols :=
  h.roundTrips Quoted.char_injective fun symbol _ ↦ Reading.gives_character symbol

theorem HasOwnTables.roundTrips_texts {codec : Codec String} (h : codec.HasOwnTables)
    {symbols : List String} (hstorable : ∀ symbol ∈ symbols, IsStorable symbol) :
    codec.RoundTrips LiteralWriter.usual Symbol.readLiteral symbols :=
  h.roundTrips Quoted.text_injective fun symbol hsymbol ↦
    Reading.gives_text (hstorable symbol hsymbol)

/-- Built codecs for characters and for texts encode every sequence whose symbols have codewords or
can be escaped, name the first symbol otherwise, and decode what they encoded; texts have to fit
into memory. With other forms of literals, decoding undoes every encoding that succeeds. The writers
of literals and their readers may look at the place where a literal stands, and may keep
memories. -/
theorem codec_roundTrips :
    (∀ codec : Codec Char, codec.HasOwnTables → ∀ symbols : List Char,
      codec.RoundTrips LiteralWriter.usual Symbol.readLiteral symbols) ∧
    (∀ codec : Codec String, codec.HasOwnTables → ∀ symbols : List String,
      (∀ symbol ∈ symbols, IsStorable symbol) →
        codec.RoundTrips LiteralWriter.usual Symbol.readLiteral symbols) ∧
    ∀ (S : Type) [Symbol S] (codec : Codec S), codec.HasOwnTables →
      (∀ (write : LiteralWriter S) (read : Reading S) (symbols : List S),
        (∀ symbol ∈ symbols, ∀ bits, write symbol = .ok bits → read.Gives bits symbol) →
          ∀ stream, codec.encode write symbols = .ok stream →
            codec.Restores read symbols stream) ∧
      ∀ (ρ τ : Type) (agree : ρ → τ → Prop) (write : S → StateT ρ ByteWriting Unit)
        (read : StateT τ Reading S) (symbols : List S),
        (∀ symbol ∈ symbols, ByteWriting.IsReadBack agree (write symbol) read symbol) →
          ∀ memory kept, agree memory kept → ∀ stream statistics,
            codec.encodeWithMemory write memory symbols = .ok (stream, statistics) →
              codec.RestoresWithMemory read kept symbols stream := by
  refine ⟨fun codec h symbols ↦ h.roundTrips_characters symbols,
    fun codec h symbols hstorable ↦ h.roundTrips_texts hstorable,
    fun S _ codec h ↦ ⟨fun write read symbols hliteral stream hstream ↦ ?_, ?_⟩⟩
  · exact h.restores hliteral hstream
  · intro ρ τ agree write read symbols hliteral memory kept hagree stream statistics hstream
    exact h.restoresWithMemory hliteral hagree hstream

/-- The bits that a byte lacks at a place in its middle. -/
def leftInByte (place : ℕ) : ℕ :=
  (8 - place % 8) % 8

/-- Writes a letter behind zeros that fill the byte up. -/
def writeAligned (letter : Char) : StateT Unit ByteWriting Unit :=
  StateT.lift do
    ByteWriting.put (leftInByte (← get).written) 0
    ByteWriting.character letter

/-- Reads a letter from the beginning of the next byte on. -/
def readAligned : StateT Unit Reading Char :=
  StateT.lift do
    Reading.skip (leftInByte (← Reading.position))
    Reading.character

/-- A letter at the beginning of a byte is read back. -/
theorem isReadBack_aligned (letter : Char) :
    ByteWriting.IsReadBack (fun _ _ ↦ True) (writeAligned letter) readAligned letter := by
  intro _ writer _ _ left hrun
  cases hrun
  let width := leftInByte writer.written
  have hwidth : width ≤ 32 := by
    have hlt : width < 8 := Nat.mod_lt _ (by decide)
    omega
  have hgives : Reading.Gives (Reading.skip width >>= fun _ ↦ Reading.character)
      (Bits.ofNat width 0 ++ Bits.ofNat characterBits letter.toNat) letter := by
    have hskip := Reading.gives_skip (Bits.ofNat width 0)
    rw [Bits.length_ofNat] at hskip
    exact hskip.bind (Reading.gives_character letter)
  refine ⟨Bits.ofNat width 0 ++ Bits.ofNat characterBits letter.toNat, ?_,
    fun memory cursor rest hmemory hplace hcursor ↦ ?_⟩
  · show ((writer.put width 0).put characterBits letter.toNat).content = _
    rw [ByteWriter.content_put _ (by decide), ByteWriter.content_put _ hwidth, List.append_assoc]
  · have hrun : (readAligned.run memory).run cursor =
        ((StateT.lift (Reading.skip (leftInByte cursor.position) >>= fun _ ↦ Reading.character) :
          StateT Unit Reading Char).run memory).run cursor := rfl
    rw [hrun, hplace]
    exact hgives.givesAt writer.written (fun _ ↦ True) memory cursor rest hmemory hplace hcursor

/-- Codecs for two letters and for two words restore them and a third one. -/
theorem codec_roundTrips_of_letters :
    ∃ (characters strict : Codec Char) (texts : Codec String) (stream aligned : PackedStream)
        (statistics : Statistics),
      characters.HasOwnTables ∧ strict.HasOwnTables ∧ texts.HasOwnTables ∧
      characters.encode LiteralWriter.usual ['b', 'z', 'a'] = .ok stream ∧
      characters.RoundTrips LiteralWriter.usual Symbol.readLiteral ['b', 'z', 'a'] ∧
      characters.Restores Symbol.readLiteral ['b', 'z', 'a'] stream ∧
      texts.RoundTrips LiteralWriter.usual Symbol.readLiteral ["b", "", "z"] ∧
      strict.RoundTrips LiteralWriter.usual Symbol.readLiteral ['b', 'z', 'x'] ∧
      strict.encode LiteralWriter.usual ['b', 'z', 'x'] = .error (.unencodable "'z'") ∧
      characters.encodeWithMemory writeAligned () ['b', 'z', 'a'] = .ok (aligned, statistics) ∧
      characters.RestoresWithMemory readAligned () ['b', 'z', 'a'] aligned := by
  obtain ⟨hcharacters, htexts, hliterals⟩ := codec_roundTrips
  let letters : Frequencies Char := (Frequencies.empty.add 'a' 1).add 'b' 2
  obtain ⟨characters, hmade⟩ := (exists_ofFrequencies_iff letters .standard).mpr
    ⟨by decide, by decide +kernel, by decide +kernel⟩
  obtain ⟨strict, hmadeStrict⟩ := (exists_ofFrequencies_iff letters .strict).mpr
    ⟨by decide, by decide +kernel, by decide +kernel⟩
  obtain ⟨texts, hmadeTexts⟩ := (exists_ofFrequencies_iff
    ((Frequencies.empty.add "a" 1).add "b" 2) .standard).mpr
      ⟨by decide, by decide +kernel, by decide +kernel⟩
  obtain ⟨hown, hconfig, _⟩ := hasOwnTables_of_ofFrequencies hmade
  obtain ⟨hownStrict, hconfigStrict, hcountsStrict⟩ := hasOwnTables_of_ofFrequencies hmadeStrict
  obtain ⟨hownTexts, _⟩ := hasOwnTables_of_ofFrequencies hmadeTexts
  have hround := hcharacters characters hown ['b', 'z', 'a']
  have hroundStrict := hcharacters strict hownStrict ['b', 'z', 'x']
  obtain ⟨stream, hstream⟩ := hround.encode_ok_iff.mpr (Or.inl (hconfig ▸ rfl))
  have hcode (letter : Char) : strict.HasCode letter ↔ letter ∈ letters.weights := by
    rw [hownStrict.hasCode_iff, hcountsStrict]
  have hfails : strict.encode LiteralWriter.usual (['b'] ++ 'z' :: ['x']) =
      .error (.unencodable (Symbol.quoted 'z')) :=
    RoundTrips.encode_eq_error hroundStrict (by rw [hconfigStrict]; decide)
      (fun other hother ↦ (hcode other).mpr (List.mem_singleton.mp hother ▸ by decide +kernel))
      ((hcode 'z').not.mpr (by decide +kernel))
  have hquoted : Symbol.quoted 'z' = "'z'" := by decide +kernel
  obtain ⟨tables, hstage, _⟩ := hown.exists_isDerived
  have hescape : tables.book.escape.isSome = true :=
    (hasEscape_iff hstage).mp (hown.hasEscape_iff.mpr (hconfig ▸ rfl))
  obtain ⟨⟨aligned, statistics⟩, haligned⟩ := Codebook.exists_encodeWithMemory hescape
    (fun letter _ writer ↦ ⟨(), _, rfl⟩ : ∀ letter memory writer, ∃ later left,
      ((writeAligned letter).run memory).run writer = .ok ((), later) left) () ['b', 'z', 'a']
  have hencoded : characters.encodeWithMemory writeAligned () ['b', 'z', 'a'] =
      .ok (aligned, statistics) := by
    rw [encodeWithMemory, tables_eq hstage]
    exact haligned
  obtain ⟨hplain, hmemory⟩ := hliterals Char characters hown
  refine ⟨characters, strict, texts, stream, aligned, statistics, hown, hownStrict, hownTexts,
    hstream, hround, hplain _ _ _ (fun symbol _ bits hbits ↦ ?_) _ hstream,
    htexts texts hownTexts _ (by decide), hroundStrict, hquoted ▸ hfails, hencoded,
    hmemory _ _ _ _ _ _ (fun symbol _ ↦ isReadBack_aligned symbol) _ _ trivial _ _ hencoded⟩
  cases hbits
  exact Reading.gives_character symbol

end Codec

end HuffmanCoding
