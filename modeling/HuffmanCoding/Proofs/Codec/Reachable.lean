import HuffmanCoding.Codec.TextLists
import HuffmanCoding.Proofs.Codec.Built
import HuffmanCoding.Proofs.Codec.Update

/-!
# Codecs in use

A codec is sound if the tables that it has, if any, are those of its counts (`Codec.IsSound`). Every
update keeps this, as it keeps each property of the codecs that learn and of those with their own
tables (`Codec.IsLasting`). The two parts of a codec for texts are only ever updated in the same
ways, so they have each lasting property whatever was done with the codec, updates that failed
included (`TextCodec.Reachable.hasParts`). In particular they are sound
(`TextCodec.Reachable.isSound`), and so are those of a codec for lists of texts
(`TextListCodec.Reachable.isSound`).
-/

set_option autoImplicit false
set_option relaxedAutoImplicit false

namespace HuffmanCoding

namespace Codec

variable {S : Type} [Symbol S]

/-- If the codec has tables, they are those of its counts. -/
def IsSound (codec : Codec S) : Prop :=
  ∀ tables, codec.stage = .built tables →
    (Tables.build codec.frequencies codec.config).unheard = .ok tables

/-- A codec that counts has no tables. -/
theorem isSound_training (config : TableConfig) (isTrainable : Bool)
    (frequencies : Frequencies S) : IsSound ⟨config, isTrainable, .training frequencies⟩ := by
  intro tables hstage
  cases hstage

theorem HasOwnTables.isSound {codec : Codec S} (h : codec.HasOwnTables) : codec.IsSound := by
  obtain ⟨tables, hstage, htables⟩ := h
  intro others hothers
  rw [hstage] at hothers
  cases hothers
  exact htables

/-- A sound codec that is built has its own tables. -/
theorem IsSound.hasOwnTables {codec : Codec S} (h : codec.IsSound) {tables : Tables S}
    (hstage : codec.stage = .built tables) : codec.HasOwnTables :=
  ⟨tables, hstage, h tables hstage⟩

/-! ### Updates -/

/-- The property holds of every codec that learns and of every codec with its own tables. -/
structure IsLasting (property : Codec S → Prop) : Prop where
  learning : ∀ config frequencies, property ⟨config, true, .training frequencies⟩
  own : ∀ codec, codec.HasOwnTables → property codec

section Lasting

variable {property : Codec S → Prop}

theorem IsLasting.keeps_count (h : IsLasting property) (change : Frequencies S → Frequencies S) :
    (count change : Update (Codec S) Unit).Keeps property := by
  intro monitored hcodec
  obtain ⟨codec, log⟩ := monitored
  rcases codec.run_count_cases change log with ⟨frequencies, _, hrun⟩ | ⟨error, hrun⟩
  · rw [hrun]
    exact h.learning codec.config (change frequencies)
  · rw [hrun]
    exact hcodec

theorem IsLasting.keeps_keepAtLeast (h : IsLasting property) (cutoff : Weight) :
    (keepAtLeast cutoff : Update (Codec S) ℕ).Keeps property :=
  Update.keeps_codec.bind fun _ ↦ (Update.keeps_ofExcept _).bind fun _ ↦
    (h.keeps_count _).bind fun _ ↦ Update.keeps_pure _

theorem IsLasting.keeps_build (h : IsLasting property) :
    (build : Update (Codec S) Unit).Keeps property := by
  intro monitored hcodec
  obtain ⟨codec, log⟩ := monitored
  rcases codec.run_build_cases log with ⟨tables, left, hrun, _, htables⟩ | ⟨error, left, hrun⟩
  · rw [hrun]
    exact h.own _ (hasOwnTables_of_tables htables codec.isTrainable)
  · rw [hrun]
    exact hcodec

end Lasting

theorem isLasting_isSound : IsLasting (IsSound (S := S)) where
  learning := fun config frequencies ↦ isSound_training config true frequencies
  own := fun _ h ↦ h.isSound

end Codec

/-! ### Codecs for texts -/

namespace TextCodec

/-- Both codecs of a codec for texts are sound. -/
structure IsSound (codec : TextCodec) : Prop where
  texts : codec.texts.IsSound
  characters : codec.characters.IsSound

/-- The codecs for texts that come about: learning, or made from given counts, and then updated in
any way, where an update that fails leaves a codec behind, too. -/
inductive Reachable : TextCodec → Prop where
  | trainable {config : TextConfig} {codec : TextCodec}
    (h : TextCodec.trainable config = .ok codec) : Reachable codec
  | ofFrequencies {texts : Frequencies String} {characters : Frequencies Char}
    {config : TextConfig} {codec : TextCodec}
    (h : (TextCodec.ofFrequencies texts characters config).unheard = .ok codec) : Reachable codec
  | train {codec : TextCodec} (h : Reachable codec) (text : String) :
    Reachable (Update.perform (TextCodec.train text) codec).2.codec
  | trainAll {codec : TextCodec} (h : Reachable codec) (texts : List String) :
    Reachable (Update.perform (TextCodec.trainAll texts) codec).2.codec
  | build {codec : TextCodec} (h : Reachable codec) :
    Reachable (Update.perform TextCodec.build codec).2.codec

/-- Each of the two codecs has a property of its own. -/
structure HasParts (textProperty : Codec String → Prop) (characterProperty : Codec Char → Prop)
    (codec : TextCodec) : Prop where
  texts : textProperty codec.texts
  characters : characterProperty codec.characters

section Parts

variable {textProperty : Codec String → Prop} {characterProperty : Codec Char → Prop}

theorem keeps_onTexts {α : Type} {update : Update (Codec String) α}
    (h : update.Keeps textProperty) :
    (onTexts update).Keeps (HasParts textProperty characterProperty) :=
  Update.keeps_onPart h (fun _ hparts ↦ hparts.texts)
    fun _ _ hparts hchanged ↦ ⟨hchanged, hparts.characters⟩

theorem keeps_onCharacters {α : Type} {update : Update (Codec Char) α}
    (h : update.Keeps characterProperty) :
    (onCharacters update).Keeps (HasParts textProperty characterProperty) :=
  Update.keeps_onPart h (fun _ hparts ↦ hparts.characters)
    fun _ _ hparts hchanged ↦ ⟨hparts.texts, hchanged⟩

variable (htexts : Codec.IsLasting textProperty) (hcharacters : Codec.IsLasting characterProperty)

include htexts hcharacters

theorem keeps_train (text : String) :
    (train text).Keeps (HasParts textProperty characterProperty) :=
  (keeps_onTexts (htexts.keeps_count _)).bind fun _ ↦
    keeps_onCharacters (hcharacters.keeps_count _)

theorem keeps_trainAll (texts : List String) :
    (trainAll texts).Keeps (HasParts textProperty characterProperty) :=
  Update.keeps_forM (keeps_train htexts hcharacters)

theorem keeps_build : build.Keeps (HasParts textProperty characterProperty) := by
  have htables (isEmpty : Bool) : Update.Keeps (do
      onTexts Codec.build
      if !isEmpty then onCharacters Codec.build) (HasParts textProperty characterProperty) := by
    refine (keeps_onTexts htexts.keeps_build).bind fun _ ↦ ?_
    cases isEmpty with
    | true => exact Update.keeps_pure ()
    | false => exact keeps_onCharacters hcharacters.keeps_build
  refine Update.keeps_codec.bind fun codec ↦ ?_
  by_cases hbuilt : codec.texts.isBuilt = true
  · rw [if_pos hbuilt]
    exact Update.keeps_throw _
  · rw [if_neg hbuilt]
    refine (Update.keeps_hearing _).bind fun kept ↦ ?_
    by_cases hrare : kept.size < codec.texts.frequencies.size
    · rw [if_pos hrare]
      exact (keeps_onTexts (htexts.keeps_keepAtLeast _)).bind fun _ ↦ htables _
    · rw [if_neg hrare]
      exact htables _

end Parts

/-- The texts that keep a codeword of their own, when nobody hears that all of them are rare. -/
theorem unheard_keepFrequent (frequencies : Frequencies String) (cutoff : Weight) :
    (frequencies.keepFrequent cutoff).unheard =
      .ok (if cutoff ≤ 1 ∨ (frequencies.keepAtLeast cutoff).isEmpty = true then frequencies
        else frequencies.keepAtLeast cutoff) := by
  unfold Frequencies.keepFrequent
  by_cases hall : cutoff ≤ 1
  · rw [if_pos hall, if_pos (Or.inl hall)]
    rfl
  · rw [if_neg hall]
    dsimp only
    by_cases hrare : (frequencies.keepAtLeast cutoff).isEmpty = true
    · rw [if_pos hrare, if_pos (Or.inr hrare)]
      rfl
    · rw [if_neg hrare, if_neg (not_or.mpr ⟨hall, hrare⟩)]
      rfl

theorem onlyAdds_keepFrequent (frequencies : Frequencies String) (cutoff : Weight) :
    (frequencies.keepFrequent cutoff).OnlyAdds := by
  unfold Frequencies.keepFrequent
  by_cases hall : cutoff ≤ 1
  · rw [if_pos hall]
    exact .pure _
  · rw [if_neg hall]
    dsimp only
    by_cases hrare : (frequencies.keepAtLeast cutoff).isEmpty = true
    · rw [if_pos hrare]
      exact (Logged.OnlyAdds.warn _).bind fun _ ↦ .pure _
    · rw [if_neg hrare]
      exact .pure _

/-- The codec for characters that is made from their counts, of which there may be none. -/
def ofCharacters (characters : Frequencies Char) (config : TableConfig) : Logged (Codec Char) :=
  if characters.isEmpty then pure (Codec.trainable config)
  else Codec.ofFrequencies characters config

theorem onlyAdds_ofCharacters (characters : Frequencies Char) (config : TableConfig) :
    (ofCharacters characters config).OnlyAdds := by
  unfold ofCharacters
  by_cases hnone : characters.isEmpty = true
  · rw [if_pos hnone]
    exact .pure _
  · rw [if_neg hnone]
    exact Codec.onlyAdds_ofFrequencies characters config

/-- The codec with the tables of counts from which rare texts have been left out. -/
def ofKept (kept : Frequencies String) (characters : Frequencies Char) (config : TextConfig) :
    Logged TextCodec := do
  let textCodec ← Codec.ofFrequencies kept config.texts
  let characterCodec ← ofCharacters characters config.characters
  return ⟨config.cutoff, textCodec, characterCodec⟩

theorem onlyAdds_ofKept (kept : Frequencies String) (characters : Frequencies Char)
    (config : TextConfig) : (ofKept kept characters config).OnlyAdds :=
  .bind (Codec.onlyAdds_ofFrequencies _ _) fun _ ↦ .bind (onlyAdds_ofCharacters _ _) fun _ ↦ .pure _

/-- Where rare texts have been left out, each part comes from its counts. -/
theorem ofKept_eq_ok_iff {kept : Frequencies String} {characters : Frequencies Char}
    {config : TextConfig} {codec : TextCodec} :
    (ofKept kept characters config).unheard = .ok codec ↔
      ∃ textCodec, (Codec.ofFrequencies kept config.texts).unheard = .ok textCodec ∧
        ∃ characterCodec, (ofCharacters characters config.characters).unheard =
            .ok characterCodec ∧
          codec = ⟨config.cutoff, textCodec, characterCodec⟩ := by
  rw [ofKept, Logged.unheard_bind fun _ ↦ .bind (onlyAdds_ofCharacters _ _) fun _ ↦ .pure _]
  simp only [Outcome.bind_eq_ok_iff, Logged.unheard_bind fun _ ↦ Logged.OnlyAdds.pure _,
    Logged.unheard_pure, Except.ok.injEq, @eq_comm _ codec]

/-- A codec from given counts is made of what is left of them. -/
theorem ofFrequencies_eq (texts : Frequencies String) (characters : Frequencies Char)
    (config : TextConfig) : ofFrequencies texts characters config =
      Logged.ofExcept config.check >>= fun _ ↦ texts.keepFrequent config.cutoff >>= fun kept ↦
        ofKept kept characters config := by
  unfold ofFrequencies ofKept ofCharacters
  by_cases hnone : characters.isEmpty = true
  · simp only [if_pos hnone]
  · simp only [if_neg hnone]

/-- A codec comes from given counts if the configuration is in order and each part comes from its
counts. -/
theorem ofFrequencies_eq_ok_iff {texts : Frequencies String} {characters : Frequencies Char}
    {config : TextConfig} {codec : TextCodec} :
    (ofFrequencies texts characters config).unheard = .ok codec ↔
      config.check = .ok () ∧ ∃ kept, (texts.keepFrequent config.cutoff).unheard = .ok kept ∧
        ∃ textCodec, (Codec.ofFrequencies kept config.texts).unheard = .ok textCodec ∧
          ∃ characterCodec, (ofCharacters characters config.characters).unheard =
              .ok characterCodec ∧
            codec = ⟨config.cutoff, textCodec, characterCodec⟩ := by
  have hrest (kept : Frequencies String) := onlyAdds_ofKept kept characters config
  rw [ofFrequencies_eq, Logged.unheard_bind fun _ ↦ (onlyAdds_keepFrequent _ _).bind hrest,
    Logged.unheard_ofExcept, Logged.unheard_bind hrest, Outcome.bind_eq_ok_iff]
  simp only [Outcome.bind_eq_ok_iff, ofKept_eq_ok_iff]
  constructor
  · rintro ⟨_, h⟩
    exact h
  · intro h
    exact ⟨(), h⟩

/-- Counts of texts and of characters that are codable make a codec with both tables, in which every
text has a codeword if the cutoff is one. -/
theorem exists_ofFrequencies {texts : Frequencies String} {characters : Frequencies Char}
    {config : TextConfig} (hcheck : config.check = .ok ()) (hcutoff : config.cutoff ≤ 1)
    (hsome : ¬ characters.isEmpty = true) (htexts : Tree.IsCodable texts config.texts)
    (hcharacters : Tree.IsCodable characters config.characters) :
    ∃ textCodec characterCodec, (Codec.ofFrequencies texts config.texts).unheard = .ok textCodec ∧
      (Codec.ofFrequencies characters config.characters).unheard = .ok characterCodec ∧
      (ofFrequencies texts characters config).unheard =
        .ok ⟨config.cutoff, textCodec, characterCodec⟩ := by
  obtain ⟨textCodec, hmade⟩ := (Codec.exists_ofFrequencies_iff _ _).mpr htexts
  obtain ⟨characterCodec, hspelling⟩ := (Codec.exists_ofFrequencies_iff _ _).mpr hcharacters
  have hkept : (texts.keepFrequent config.cutoff).unheard = .ok texts := by
    rw [unheard_keepFrequent, if_pos (Or.inl hcutoff)]
  have hpart : (ofCharacters characters config.characters).unheard = .ok characterCodec := by
    rw [ofCharacters, if_neg hsome]
    exact hspelling
  exact ⟨textCodec, characterCodec, hmade, hspelling, ofFrequencies_eq_ok_iff.mpr
    ⟨hcheck, texts, hkept, textCodec, hmade, characterCodec, hpart, rfl⟩⟩

section Lasting

variable {textProperty : Codec String → Prop} {characterProperty : Codec Char → Prop}
  (htexts : Codec.IsLasting textProperty) (hcharacters : Codec.IsLasting characterProperty)

include htexts hcharacters

theorem hasParts_of_trainable {config : TextConfig} {codec : TextCodec}
    (h : trainable config = .ok codec) : codec.HasParts textProperty characterProperty := by
  obtain ⟨_, _, hpure⟩ := Outcome.bind_eq_ok_iff.mp h
  cases hpure
  exact ⟨htexts.learning _ _, hcharacters.learning _ _⟩

/-- The parts of a codec that was made from given counts have all lasting properties. -/
theorem hasParts_of_ofFrequencies {texts : Frequencies String} {characters : Frequencies Char}
    {config : TextConfig} {codec : TextCodec}
    (h : (ofFrequencies texts characters config).unheard = .ok codec) :
    codec.HasParts textProperty characterProperty := by
  obtain ⟨_, kept, _, textCodec, hkept, characterCodec, hmade, rfl⟩ := ofFrequencies_eq_ok_iff.mp h
  refine ⟨htexts.own _ (Codec.hasOwnTables_of_ofFrequencies hkept).1, ?_⟩
  unfold ofCharacters at hmade
  by_cases hnone : characters.isEmpty = true
  · rw [if_pos hnone] at hmade
    cases hmade
    exact hcharacters.learning _ _
  · rw [if_neg hnone] at hmade
    exact hcharacters.own _ (Codec.hasOwnTables_of_ofFrequencies hmade).1

/-- The parts of every codec for texts that comes about have all lasting properties. -/
theorem Reachable.hasParts {codec : TextCodec} (h : codec.Reachable) :
    codec.HasParts textProperty characterProperty := by
  induction h with
  | trainable h => exact hasParts_of_trainable htexts hcharacters h
  | ofFrequencies h => exact hasParts_of_ofFrequencies htexts hcharacters h
  | train _ text ih => exact (keeps_train htexts hcharacters text).perform ih
  | trainAll _ texts ih => exact (keeps_trainAll htexts hcharacters texts).perform ih
  | build _ ih => exact (keeps_build htexts hcharacters).perform ih

end Lasting

/-- Every codec for texts that comes about is sound. -/
theorem Reachable.isSound {codec : TextCodec} (h : codec.Reachable) : codec.IsSound :=
  have hparts := h.hasParts Codec.isLasting_isSound Codec.isLasting_isSound
  ⟨hparts.texts, hparts.characters⟩

end TextCodec

/-! ### Codecs for lists of texts -/

namespace TextListCodec

/-- The codecs for lists of texts that come about: learning, or around a codec for texts, and then
updated in any way. -/
inductive Reachable : TextListCodec → Prop where
  | ofTexts {texts : TextCodec} (h : texts.Reachable) : Reachable ⟨texts⟩
  | trainable {config : TextConfig} {codec : TextListCodec}
    (h : TextListCodec.trainable config = .ok codec) : Reachable codec
  | train {codec : TextListCodec} (h : Reachable codec) (list : List String) :
    Reachable (Update.perform (TextListCodec.train list) codec).2.codec
  | build {codec : TextListCodec} (h : Reachable codec) :
    Reachable (Update.perform TextListCodec.build codec).2.codec

theorem keeps_onTexts {α : Type} {update : Update TextCodec α} {property : TextCodec → Prop}
    (h : update.Keeps property) : (onTexts update).Keeps fun codec ↦ property codec.texts :=
  Update.keeps_onPart h (fun _ hproperty ↦ hproperty) fun _ _ _ hchanged ↦ hchanged

/-- The parts of every codec for lists of texts that comes about have all lasting properties. -/
theorem Reachable.hasParts {textProperty : Codec String → Prop}
    {characterProperty : Codec Char → Prop} (htexts : Codec.IsLasting textProperty)
    (hcharacters : Codec.IsLasting characterProperty) {codec : TextListCodec}
    (h : codec.Reachable) : codec.texts.HasParts textProperty characterProperty := by
  induction h with
  | ofTexts h => exact h.hasParts htexts hcharacters
  | trainable h =>
    obtain ⟨texts, hmade, hpure⟩ := Outcome.bind_eq_ok_iff.mp h
    cases hpure
    exact TextCodec.hasParts_of_trainable htexts hcharacters hmade
  | train _ list ih =>
    exact (keeps_onTexts (TextCodec.keeps_trainAll htexts hcharacters list)).perform ih
  | build _ ih => exact (keeps_onTexts (TextCodec.keeps_build htexts hcharacters)).perform ih

/-- Every codec for lists of texts that comes about has sound parts. -/
theorem Reachable.isSound {codec : TextListCodec} (h : codec.Reachable) : codec.texts.IsSound :=
  have hparts := h.hasParts Codec.isLasting_isSound Codec.isLasting_isSound
  ⟨hparts.texts, hparts.characters⟩

end TextListCodec

end HuffmanCoding
