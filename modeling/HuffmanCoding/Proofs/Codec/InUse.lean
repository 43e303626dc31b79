import HuffmanCoding.Proofs.Binary.Codecs

/-!
# Codecs in use

A codec is made, or loaded from its stored form, and then updated in any way (`InUse`). What is true
of the codecs that are made and of those that are loaded, and kept by each update, is true of every
codec in use (`IsPreserved.property`). That a codec can be restored from its stored form is such a
property, for codecs of each kind.
-/

set_option autoImplicit false
set_option relaxedAutoImplicit false

namespace HuffmanCoding

/-- How codecs of a type are made and updated. -/
class Operations (C : Type) where
  Makes : C → Prop
  Updates : Update C Unit → Prop

/-- The codecs that come about: made or loaded, and then updated in any way, where an update that
fails leaves a codec behind, too. -/
inductive InUse {C : Type} [Binary C] [Operations C] : C → Prop where
  | made {codec : C} (h : Operations.Makes codec) : InUse codec
  | loaded {bytes : List UInt8} {codec : C} (h : Binary.ofBytes bytes = .ok codec) : InUse codec
  | updated {codec : C} (h : InUse codec) {update : Update C Unit}
    (hupdate : Operations.Updates update) : InUse (update.perform codec).2.codec

section InUse

variable {C : Type} [Binary C] [Operations C]

/-- A property that codecs have from the start and keep. -/
structure IsPreserved (property : C → Prop) : Prop where
  made : ∀ codec, Operations.Makes codec → property codec
  loaded : (Binary.decode : Decoder C).Yields property
  updated : ∀ update, Operations.Updates update → update.Keeps property

/-- What is preserved is true of every codec in use. -/
theorem IsPreserved.property {property : C → Prop} (hpreserved : IsPreserved property) {codec : C}
    (h : InUse codec) : property codec := by
  induction h with
  | made h => exact hpreserved.made _ h
  | loaded h => exact Binary.property_of_ofBytes hpreserved.loaded h
  | updated _ hupdate ih => exact (hpreserved.updated _ hupdate).perform ih

end InUse

/-! ### Codecs for characters -/

namespace CharacterCodec

/-- The codecs for characters that are made. -/
inductive Makes : CharacterCodec → Prop where
  | trainable (config : TableConfig) : Makes (.trainable config)
  | ofFrequencies {frequencies : Frequencies Char} {config : TableConfig} {codec : CharacterCodec}
    (h : (CharacterCodec.ofFrequencies frequencies config).unheard = .ok codec) : Makes codec
  | ofCodec {codec : Codec Char} (h : codec.Reachable) : Makes ⟨codec⟩

/-- The updates of codecs for characters. -/
inductive Updates : Update CharacterCodec Unit → Prop where
  | train (character : Char) : Updates (SequenceCodec.train character)
  | trainAll (characters : List Char) : Updates (SequenceCodec.trainAll characters)
  | trainText (text : String) : Updates (CharacterCodec.trainText text)
  | trainCorpus (corpus : List UInt8) : Updates (CharacterCodec.trainCorpus corpus)
  | build : Updates CharacterCodec.build

instance : Operations CharacterCodec := ⟨Makes, Updates⟩

theorem keeps_onCodec {update : Update (Codec Char) Unit} (h : update.Keeps Codec.IsRestorable) :
    (onCodec update).Keeps IsRestorable :=
  Update.keeps_onPart h (fun _ hcodec ↦ hcodec) fun _ _ _ hchanged ↦ hchanged

theorem keeps_train (character : Char) :
    (SequenceCodec.train character : Update CharacterCodec Unit).Keeps IsRestorable :=
  keeps_onCodec (Codec.isLasting_isRestorable.keeps_count _)

theorem isRestorable_of_ofFrequencies {frequencies : Frequencies Char} {config : TableConfig}
    {codec : CharacterCodec} (h : (ofFrequencies frequencies config).unheard = .ok codec) :
    codec.IsRestorable := by
  unfold ofFrequencies at h
  rw [Logged.unheard_bind fun _ ↦ .pure _] at h
  obtain ⟨inner, hinner, hpure⟩ := Outcome.bind_eq_ok_iff.mp h
  cases hpure
  exact Codec.isLasting_isRestorable.own _ (Codec.hasOwnTables_of_ofFrequencies hinner).1

theorem isPreserved_isRestorable : IsPreserved IsRestorable where
  made := by
    intro codec hmade
    cases hmade with
    | trainable config => exact Codec.isLasting_isRestorable.learning config .empty
    | ofFrequencies h => exact isRestorable_of_ofFrequencies h
    | ofCodec h => exact Codec.isLasting_isRestorable.of_reachable h
  loaded := yields_isRestorable
  updated := by
    intro update hupdate
    cases hupdate with
    | train character => exact keeps_train character
    | trainAll characters => exact Update.keeps_forM keeps_train
    | trainText text => exact keeps_onCodec (Codec.isLasting_isRestorable.keeps_count _)
    | trainCorpus corpus =>
      exact (Update.keeps_ofExcept _).bind fun _ ↦
        keeps_onCodec (Codec.isLasting_isRestorable.keeps_count _)
    | build => exact keeps_onCodec Codec.isLasting_isRestorable.keeps_build

end CharacterCodec

/-! ### Codecs for texts -/

namespace TextCodec

/-- The codecs for texts that are made. -/
inductive Makes : TextCodec → Prop where
  | trainable {config : TextConfig} {codec : TextCodec}
    (h : TextCodec.trainable config = .ok codec) : Makes codec
  | ofFrequencies {texts : Frequencies String} {characters : Frequencies Char}
    {config : TextConfig} {codec : TextCodec}
    (h : (TextCodec.ofFrequencies texts characters config).unheard = .ok codec) : Makes codec

/-- The updates of codecs for texts. -/
inductive Updates : Update TextCodec Unit → Prop where
  | train (text : String) : Updates (TextCodec.train text)
  | trainAll (texts : List String) : Updates (TextCodec.trainAll texts)
  | build : Updates TextCodec.build

instance : Operations TextCodec := ⟨Makes, Updates⟩

theorem keeps_trainAll_isRestorable (texts : List String) : (trainAll texts).Keeps IsRestorable :=
  keeps_trainAll Codec.isLasting_isRestorable Codec.isLasting_isRestorable texts

theorem keeps_build_isRestorable : build.Keeps IsRestorable :=
  keeps_build Codec.isLasting_isRestorable Codec.isLasting_isRestorable

theorem isRestorable_of_trainable {config : TextConfig} {codec : TextCodec}
    (h : trainable config = .ok codec) : codec.IsRestorable :=
  hasParts_of_trainable Codec.isLasting_isRestorable Codec.isLasting_isRestorable h

theorem isPreserved_isRestorable : IsPreserved IsRestorable where
  made := by
    intro codec hmade
    cases hmade with
    | trainable h => exact isRestorable_of_trainable h
    | ofFrequencies h =>
      exact hasParts_of_ofFrequencies Codec.isLasting_isRestorable Codec.isLasting_isRestorable h
  loaded := yields_isRestorable
  updated := by
    intro update hupdate
    cases hupdate with
    | train text =>
      exact keeps_train Codec.isLasting_isRestorable Codec.isLasting_isRestorable text
    | trainAll texts => exact keeps_trainAll_isRestorable texts
    | build => exact keeps_build_isRestorable

end TextCodec

/-! ### Codecs for lists of texts -/

namespace TextListCodec

/-- The codecs for lists of texts that are made. -/
inductive Makes : TextListCodec → Prop where
  | trainable {config : TextConfig} {codec : TextListCodec}
    (h : TextListCodec.trainable config = .ok codec) : Makes codec
  | ofTexts {texts : TextCodec} (h : InUse texts) : Makes ⟨texts⟩

/-- The updates of codecs for lists of texts. -/
inductive Updates : Update TextListCodec Unit → Prop where
  | train (list : List String) : Updates (TextListCodec.train list)
  | trainAll (lists : List (List String)) : Updates (SequenceCodec.trainAll lists)
  | build : Updates TextListCodec.build

instance : Operations TextListCodec := ⟨Makes, Updates⟩

theorem keeps_train (list : List String) : (train list).Keeps IsRestorable :=
  keeps_onTexts (TextCodec.keeps_trainAll_isRestorable list)

theorem isRestorable_of_trainable {config : TextConfig} {codec : TextListCodec}
    (h : trainable config = .ok codec) : codec.IsRestorable := by
  obtain ⟨texts, htexts, hpure⟩ := Outcome.bind_eq_ok_iff.mp h
  cases hpure
  exact TextCodec.isRestorable_of_trainable htexts

theorem isPreserved_isRestorable : IsPreserved IsRestorable where
  made := by
    intro codec hmade
    cases hmade with
    | trainable h => exact isRestorable_of_trainable h
    | ofTexts h => exact TextCodec.isPreserved_isRestorable.property h
  loaded := yields_isRestorable
  updated := by
    intro update hupdate
    cases hupdate with
    | train list => exact keeps_train list
    | trainAll lists => exact Update.keeps_forM keeps_train
    | build => exact keeps_onTexts TextCodec.keeps_build_isRestorable

end TextListCodec

/-! ### Codecs of any kind -/

namespace AnyCodec

/-- The codecs of any kind that are made. -/
inductive Makes : AnyCodec → Prop where
  | trainable {kind : CodecKind} {config : TextConfig} {codec : AnyCodec}
    (h : AnyCodec.trainable kind config = .ok codec) : Makes codec
  | ofCharacters (config : TableConfig) : Makes (.ofCharacters config)
  | characters {codec : CharacterCodec} (h : InUse codec) : Makes (.characters codec)
  | texts {codec : TextCodec} (h : InUse codec) : Makes (.texts codec)
  | textLists {codec : TextListCodec} (h : InUse codec) : Makes (.textLists codec)

/-- The updates of codecs of any kind. -/
inductive Updates : Update AnyCodec Unit → Prop where
  | train (sequence : AnySequence) : Updates (AnyCodec.train sequence)
  | build : Updates AnyCodec.build

instance : Operations AnyCodec := ⟨Makes, Updates⟩

theorem isRestorable_of_trainable {kind : CodecKind} {config : TextConfig} {codec : AnyCodec}
    (h : trainable kind config = .ok codec) : codec.IsRestorable := by
  cases kind with
  | character =>
    obtain ⟨_, _, hpure⟩ := Outcome.bind_eq_ok_iff.mp h
    cases hpure
    exact Codec.isLasting_isRestorable.learning _ .empty
  | text =>
    obtain ⟨inner, hinner, hpure⟩ := Outcome.bind_eq_ok_iff.mp h
    cases hpure
    exact TextCodec.isRestorable_of_trainable hinner
  | textList =>
    obtain ⟨inner, hinner, hpure⟩ := Outcome.bind_eq_ok_iff.mp h
    cases hpure
    exact TextListCodec.isRestorable_of_trainable hinner

/-- An update of the codec inside leaves a restorable codec if it does so there. -/
theorem keeps_on {C : Type} {wrap : C → AnyCodec} {codec : C} {update : Update C Unit}
    {property : C → Prop} (hupdate : update.Keeps property) (hcodec : property codec)
    (hwrap : ∀ changed, property changed → (wrap changed).IsRestorable) :
    (on wrap codec update).Keeps IsRestorable :=
  Update.keeps_onPart hupdate (fun _ _ ↦ hcodec) fun _ changed _ hchanged ↦ hwrap changed hchanged

theorem keeps_train (sequence : AnySequence) : (train sequence).Keeps IsRestorable := by
  refine Update.keeps_codec_bind fun current hcurrent ↦ ?_
  cases current with
  | characters codec =>
    cases sequence with
    | characters symbols =>
      exact keeps_on (Update.keeps_forM CharacterCodec.keeps_train) hcurrent fun _ h ↦ h
    | texts symbols => exact Update.keeps_throw _
    | textLists symbols => exact Update.keeps_throw _
  | texts codec =>
    cases sequence with
    | characters symbols => exact Update.keeps_throw _
    | texts symbols =>
      exact keeps_on (TextCodec.keeps_trainAll_isRestorable symbols) hcurrent fun _ h ↦ h
    | textLists symbols => exact Update.keeps_throw _
  | textLists codec =>
    cases sequence with
    | characters symbols => exact Update.keeps_throw _
    | texts symbols => exact Update.keeps_throw _
    | textLists symbols =>
      exact keeps_on (Update.keeps_forM TextListCodec.keeps_train) hcurrent fun _ h ↦ h

theorem keeps_build : build.Keeps IsRestorable := by
  refine Update.keeps_codec_bind fun current hcurrent ↦ ?_
  cases current with
  | characters codec =>
    exact keeps_on (CharacterCodec.keeps_onCodec Codec.isLasting_isRestorable.keeps_build)
      hcurrent fun _ h ↦ h
  | texts codec => exact keeps_on TextCodec.keeps_build_isRestorable hcurrent fun _ h ↦ h
  | textLists codec =>
    exact keeps_on (TextListCodec.keeps_onTexts TextCodec.keeps_build_isRestorable) hcurrent
      fun _ h ↦ h

theorem isPreserved_isRestorable : IsPreserved IsRestorable where
  made := by
    intro codec hmade
    cases hmade with
    | trainable h => exact isRestorable_of_trainable h
    | ofCharacters config => exact Codec.isLasting_isRestorable.learning config .empty
    | characters h => exact CharacterCodec.isPreserved_isRestorable.property h
    | texts h => exact TextCodec.isPreserved_isRestorable.property h
    | textLists h => exact TextListCodec.isPreserved_isRestorable.property h
  loaded := yields_isRestorable
  updated := by
    intro update hupdate
    cases hupdate with
    | train sequence => exact keeps_train sequence
    | build => exact keeps_build

end AnyCodec

end HuffmanCoding
