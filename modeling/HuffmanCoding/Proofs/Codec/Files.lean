import HuffmanCoding.Proofs.Codec.InUse
import HuffmanCoding.Proofs.CodecFile
import HuffmanCoding.Proofs.Registry.StoredTypes

/-!
# Codecs in files

A codec in use is packed into a file, and whoever reads the file and unpacks it as a codec of the
same type has the codec again, with its configuration, its counts, its stage and all of its tables.
Unpacked as a value of any other registered type, the file is refused by its identifier. Both hold
for codecs of each kind (`codecs_roundTrip`), as long as their size can be written down, which in a
memory with addresses of 64 digits it always can.
-/

set_option autoImplicit false
set_option relaxedAutoImplicit false

namespace HuffmanCoding

open Binary (ReadsBack)

/-- A value that is read back is read back in the usual format of its type. -/
theorem Format.read_ofBinary {α : Type} [Binary α] {value : α} (h : ReadsBack value)
    (hsize : (Binary.encode value).length < UInt64.size) :
    (Format.ofBinary α).read (Binary.encode value) = .ok value := by
  show (Binary.ofBytes (Binary.encode value)).mapError Error.serialization = _
  rw [Binary.ofBytes_of_gives (h hsize)]
  rfl

namespace StoredType

variable {Host : Type} [TypeKeys Host] [DecidableEq Host]

/-- All types but that of codewords are registered with their usual format. -/
theorem formatOf_registration {type : StoredType} (h : type ≠ codeword) (identifier : UInt32) :
    (⟨registration type, identifier⟩ : RegisteredType (StoredType ⊕ Host)).formatOf (.inl type) =
      format type := by
  rw [registration, if_neg h]
  exact dif_pos rfl

/-- A value of a published type makes the round trip if its format can read what it wrote. -/
theorem IsLibrary.exists_roundTrips {library : Registry (StoredType ⊕ Host)}
    (h : IsLibrary library) {type : StoredType} {number : ℕ}
    (hnumber : (∃ index, codecTypes[index]? = some type ∧ number = 100 + index) ∨
      ∃ index, streamTypes[index]? = some type ∧ number = 164 + index)
    (hformat : type ≠ codeword) {value : type.Value} {payload : List UInt8}
    (hwrite : (format type).write value = .ok payload)
    (hread : (format type).read payload = .ok value) (hsize : payload.length < UInt64.size) :
    ∃ file, CodecFile.RoundTrips library (.inl type) value file := by
  refine CodecFile.exists_roundTrips h.reached.isConsistent (h.typeOf?_eq_some hnumber) ?_ ?_ hsize
  · rw [formatOf_registration hformat]
    exact hwrite
  · rw [formatOf_registration hformat]
    exact hread

end StoredType

/-! ### Sizes of stored forms -/

/-- What is stored of a codec beside its counts takes twenty bytes or less. -/
theorem Codec.length_encode_le {S : Type} [Symbol S] [Binary S] (codec : Codec S) :
    (Binary.encode codec).length ≤ 20 + (Binary.encode codec.frequencies).length := by
  have hconfig : (Binary.encode codec.config).length = 11 := by
    show ([_] ++ [_] ++ [_] ++ Binary.word 8 _).length = 11
    simp
  have hrecord : (Binary.encode codec.saved.record).length ≤ 8 := by
    cases codec.saved.record with
    | none => exact (by decide : 1 ≤ 8)
    | some record =>
      obtain ⟨escape, longest⟩ := record
      cases escape with
      | none => exact (by decide : 3 ≤ 8)
      | some codeword => exact Nat.le_refl 8
  show (Binary.encode codec.config ++ Binary.encode codec.isTrainable ++
    Binary.encode codec.frequencies ++ Binary.encode codec.saved.record).length ≤ _
  have htrainable : (Binary.encode codec.isTrainable).length = 1 := rfl
  simp only [List.length_append, hconfig, htrainable]
  omega

/-- A codec made from given counts is not much longer in its stored form than the counts. -/
theorem Codec.length_encode_lt_of_ofFrequencies {S : Type} [Symbol S] [Binary S]
    {frequencies : Frequencies S} {config : TableConfig} {codec : Codec S}
    (h : (Codec.ofFrequencies frequencies config).unheard = .ok codec)
    (hcounts : (Binary.encode frequencies).length < 100) : (Binary.encode codec).length < 120 := by
  have hlength := codec.length_encode_le
  rw [(Codec.hasOwnTables_of_ofFrequencies h).2.2] at hlength
  omega

/-- A host without types of its own. -/
instance : TypeKeys Empty where
  Value := Empty.elim
  typeName := Empty.elim
  format := fun key ↦ key.elim

/-! ### The round trip -/

/-- The registry of this library comes about, and every codec for texts as symbols, for characters,
for texts, for lists of texts and of any kind that comes about makes the round trip through a file,
as long as the size of its stored form can be written down. -/
theorem codecs_roundTrip (Host : Type) [TypeKeys Host] [DecidableEq Host] :
    ∃ library : Registry (StoredType ⊕ Host), StoredType.registry = .ok library ∧
      (∀ codec : Codec String, codec.Reachable →
        (Binary.encode codec).length < UInt64.size →
          ∃ file, CodecFile.RoundTrips library (.inl (.codec .text)) codec file) ∧
      (∀ codec : CharacterCodec, InUse codec → (Binary.encode codec).length < UInt64.size →
        ∃ file, CodecFile.RoundTrips library (.inl .characterCodec) codec file) ∧
      (∀ codec : TextCodec, InUse codec → (Binary.encode codec).length < UInt64.size →
        ∃ file, CodecFile.RoundTrips library (.inl .textCodec) codec file) ∧
      (∀ codec : TextListCodec, InUse codec → (Binary.encode codec).length < UInt64.size →
        ∃ file, CodecFile.RoundTrips library (.inl .textListCodec) codec file) ∧
      ∀ codec : AnyCodec, InUse codec → (Binary.encode codec).length < UInt64.size →
        ∃ file, CodecFile.RoundTrips library (.inl .anyCodec) codec file := by
  obtain ⟨library, hlibrary, hpublished⟩ : ∃ library : Registry (StoredType ⊕ Host),
    StoredType.registry = .ok library ∧ StoredType.IsLibrary library := StoredType.exists_registry
  refine ⟨library, hlibrary, ?_, ?_, ?_, ?_, ?_⟩
  · intro codec hreachable hsize
    have hback := Binary.readsBack_codec (Codec.isLasting_isRestorable.of_reachable hreachable)
    exact hpublished.exists_roundTrips (Or.inl ⟨0, rfl, rfl⟩) (by decide) rfl
      (Format.read_ofBinary hback hsize) hsize
  · intro codec huse hsize
    have hback := (CharacterCodec.isPreserved_isRestorable.property huse).readsBack
    exact hpublished.exists_roundTrips (Or.inl ⟨1, rfl, rfl⟩) (by decide) rfl
      (Format.read_ofBinary hback hsize) hsize
  · intro codec huse hsize
    have hback := (TextCodec.isPreserved_isRestorable.property huse).readsBack
    exact hpublished.exists_roundTrips (Or.inl ⟨17, rfl, rfl⟩) (by decide) rfl
      (Format.read_ofBinary hback hsize) hsize
  · intro codec huse hsize
    have hback := (TextListCodec.isPreserved_isRestorable.property huse).readsBack
    exact hpublished.exists_roundTrips (Or.inl ⟨2, rfl, rfl⟩) (by decide) rfl
      (Format.read_ofBinary hback hsize) hsize
  · intro codec huse hsize
    have hback := (AnyCodec.isPreserved_isRestorable.property huse).readsBack
    exact hpublished.exists_roundTrips (Or.inr ⟨2, rfl, rfl⟩) (by decide) rfl
      (Format.read_ofBinary hback hsize) hsize

/-- A codec that knows two words, a codec that learns characters, and codecs that spell unknown
words with two letters, for texts and for lists of them, make the round trip. -/
theorem codecs_roundTrip_of_words :
    ∃ library : Registry (StoredType ⊕ Empty), StoredType.registry = .ok library ∧
      (∃ words : Codec String, words.isBuilt = true ∧
        ∃ file, CodecFile.RoundTrips library (.inl (.codec .text)) words file) ∧
      (∃ characters : CharacterCodec, characters.codec.isBuilt = false ∧
        ∃ file, CodecFile.RoundTrips library (.inl .characterCodec) characters file) ∧
      ∃ texts : TextCodec, texts.isBuilt = true ∧ texts.characters.isBuilt = true ∧
        (∃ file, CodecFile.RoundTrips library (.inl .textCodec) texts file) ∧
        (∃ file, CodecFile.RoundTrips library (.inl .textListCodec) ⟨texts⟩ file) ∧
        ∃ file, CodecFile.RoundTrips library (.inl .anyCodec) (.texts texts) file := by
  obtain ⟨library, hlibrary, hwords, hcharacters, htexts, htextLists, hany⟩ :=
    codecs_roundTrip Empty
  obtain ⟨words, letters, hmade, hspelling, hcodec⟩ :=
    TextCodec.exists_ofFrequencies (by decide : TextConfig.standard.check = .ok ()) (by decide)
      (by decide +kernel : ¬ ((Frequencies.empty.add 'a' 1).add 'b' 2).isEmpty = true)
      (⟨by decide, by decide +kernel, by decide +kernel⟩ :
        Tree.IsCodable ((Frequencies.empty.add "a" 1).add "b" 2) _)
      ⟨by decide, by decide +kernel, by decide +kernel⟩
  have huse : InUse (⟨1, words, letters⟩ : TextCodec) := .made (.ofFrequencies hcodec)
  have hwordsSize := Codec.length_encode_lt_of_ofFrequencies hmade (by decide +kernel)
  have hlettersSize := Codec.length_encode_lt_of_ofFrequencies hspelling (by decide +kernel)
  have hsize : (Binary.encode (⟨1, words, letters⟩ : TextCodec)).length < 300 := by
    show (Binary.word 8 _ ++ Binary.encode words ++ Binary.encode letters).length < _
    simp only [List.length_append, Binary.length_word]
    omega
  have hanySize : (Binary.encode (AnyCodec.texts ⟨1, words, letters⟩)).length < 304 := by
    show (Binary.word 4 _ ++ Binary.encode (⟨1, words, letters⟩ : TextCodec)).length < _
    rw [List.length_append, Binary.length_word]
    omega
  refine ⟨library, hlibrary, ⟨words, (Codec.hasOwnTables_of_ofFrequencies hmade).1.isBuilt, ?_⟩,
    ⟨((CharacterCodec.trainText "abb").perform (.trainable .standard)).2.codec,
      by decide +kernel, ?_⟩,
    ⟨1, words, letters⟩, (Codec.hasOwnTables_of_ofFrequencies hmade).1.isBuilt,
    (Codec.hasOwnTables_of_ofFrequencies hspelling).1.isBuilt, ?_, ?_, ?_⟩
  · exact hwords words (.ofFrequencies hmade) (hwordsSize.trans (by decide))
  · have huse : InUse (CharacterCodec.trainable .standard) := .made (.trainable .standard)
    exact hcharacters _ (huse.updated (CharacterCodec.Updates.trainText "abb")) (by decide +kernel)
  · exact htexts _ huse (hsize.trans (by decide))
  · exact htextLists ⟨_⟩ (.made (.ofTexts huse)) (hsize.trans (by decide))
  · exact hany _ (.made (.texts huse)) (hanySize.trans (by decide))

end HuffmanCoding
