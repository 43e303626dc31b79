import HuffmanCoding.Proofs.Codec.Reachable

/-!
# Saving and loading

What is stored of a codec leaves its tables out, except for a record that is compared with the
tables that loading derives. Nothing is lost by this, since the tables of a codec are always those
of its counts, and a codec without tables is one that learns (`Codec.IsRestorable`). Every operation
keeps both, so each codec that comes about is loaded as it was saved, with all of its tables; and
whatever is loaded without an error is saved as it was stored (`Codec.saving_isLossless`), where a
record that does not tell of the tree of the stored counts is refused
(`Codec.exists_tree_of_ofSaved`).
-/

set_option autoImplicit false
set_option relaxedAutoImplicit false

namespace HuffmanCoding.Codec

variable {S : Type} [Symbol S]

/-- The codecs that come about: learning, made from given counts or loaded, and then updated in any
way, where an update that fails leaves a codec behind, too. -/
inductive Reachable : Codec S → Prop where
  | trainable (config : TableConfig) : Reachable (.trainable config)
  | ofFrequencies {frequencies : Frequencies S} {config : TableConfig} {codec : Codec S}
    (h : (Codec.ofFrequencies frequencies config).unheard = .ok codec) : Reachable codec
  | ofSaved {saved : SavedCodec S} {codec : Codec S}
    (h : (Codec.ofSaved saved).unheard = .ok codec) : Reachable codec
  | trainTimes {codec : Codec S} (h : Reachable codec) (symbol : S) (occurrences : Weight) :
    Reachable (Update.perform (Codec.trainTimes symbol occurrences) codec).2.codec
  | train {codec : Codec S} (h : Reachable codec) (symbol : S) :
    Reachable (Update.perform (Codec.train symbol) codec).2.codec
  | trainAll {codec : Codec S} (h : Reachable codec) (symbols : List S) :
    Reachable (Update.perform (Codec.trainAll symbols) codec).2.codec
  | merge {codec : Codec S} (h : Reachable codec) (frequencies : Frequencies S) :
    Reachable (Update.perform (Codec.merge frequencies) codec).2.codec
  | keepAtLeast {codec : Codec S} (h : Reachable codec) (cutoff : Weight) :
    Reachable (Update.perform (Codec.keepAtLeast cutoff) codec).2.codec
  | build {codec : Codec S} (h : Reachable codec) :
    Reachable (Update.perform Codec.build codec).2.codec

/-- The tables of the codec, if it has any, are those of its counts, and if it has none, it
learns. -/
structure IsRestorable (codec : Codec S) : Prop where
  isSound : codec.IsSound
  isTrainable : ∀ frequencies, codec.stage = .training frequencies → codec.isTrainable = true

theorem isLasting_isRestorable : IsLasting (IsRestorable (S := S)) where
  learning := fun config frequencies ↦ ⟨isSound_training config true frequencies, fun _ _ ↦ rfl⟩
  own := by
    intro codec h
    refine ⟨h.isSound, fun frequencies htraining ↦ ?_⟩
    obtain ⟨tables, hstage, _⟩ := h
    rw [htraining] at hstage
    cases hstage

/-- A restorable codec without tables learns. -/
theorem IsRestorable.counts_eq_ok {codec : Codec S} (h : codec.IsRestorable)
    (hbuilt : codec.isBuilt = false) : codec.counts = .ok codec.frequencies := by
  cases hstage : codec.stage with
  | training frequencies =>
    rw [counts_eq_ok_iff, Codec.frequencies, hstage]
    exact ⟨h.isTrainable frequencies hstage, rfl⟩
  | built tables =>
    rw [isBuilt_iff.mpr ⟨tables, hstage⟩] at hbuilt
    cases hbuilt

/-! ### Loading -/

/-- Loading yields a codec that learns, with the stored counts, or one with the tables of these
counts, whose record has to be the stored one. -/
theorem ofSaved_eq_ok_iff {saved : SavedCodec S} {codec : Codec S} :
    (ofSaved saved).unheard = .ok codec ↔
      (saved.record = none ∧ saved.isTrainable = true ∧
        codec = ⟨saved.config, true, .training saved.frequencies⟩) ∨
      ∃ tables, saved.record = some tables.record ∧
        (Tables.build saved.frequencies saved.config).unheard = .ok tables ∧
        codec = ⟨saved.config, saved.isTrainable, .built tables⟩ := by
  unfold ofSaved
  cases hrecord : saved.record with
  | none =>
    dsimp only
    by_cases htrainable : saved.isTrainable = true
    · rw [if_pos htrainable, Logged.unheard_pure, Except.ok.injEq]
      constructor
      · intro hcodec
        exact Or.inl ⟨rfl, htrainable, hcodec.symm⟩
      · intro h
        rcases h with ⟨_, _, hcodec⟩ | ⟨_, hsome, _⟩
        · exact hcodec.symm
        · cases hsome
    · rw [if_neg htrainable, Logged.unheard_throw]
      constructor
      · intro herror
        cases herror
      · intro h
        rcases h with ⟨_, hlearns, _⟩ | ⟨_, hsome, _⟩
        · exact absurd hlearns htrainable
        · cases hsome
  | some record =>
    have hcompare (tables : Tables S) : Logged.OnlyAdds (
        if tables.record = record then
          pure (⟨saved.config, saved.isTrainable, .built tables⟩ : Codec S)
        else throw (.serialization (.tablesDiffer tables.record record))) := by
      split_ifs
      · exact .pure _
      · exact .throw _
    dsimp only
    rw [Logged.unheard_bind hcompare, Outcome.bind_eq_ok_iff]
    constructor
    · intro h
      obtain ⟨tables, htables, hcodec⟩ := h
      by_cases hsame : tables.record = record
      · rw [if_pos hsame, Logged.unheard_pure, Except.ok.injEq] at hcodec
        exact Or.inr ⟨tables, by rw [hsame], htables, hcodec.symm⟩
      · rw [if_neg hsame] at hcodec
        cases hcodec
    · intro h
      rcases h with ⟨hnone, _⟩ | ⟨tables, hsome, htables, rfl⟩
      · cases hnone
      · refine ⟨tables, htables, ?_⟩
        rw [if_pos (Option.some.inj hsome).symm, Logged.unheard_pure]

/-- A restorable codec is loaded as it was saved. -/
theorem IsRestorable.ofSaved_saved {codec : Codec S} (h : codec.IsRestorable) :
    (ofSaved codec.saved).unheard = .ok codec := by
  rw [ofSaved_eq_ok_iff]
  obtain ⟨config, isTrainable, stage⟩ := codec
  cases stage with
  | training frequencies =>
    have htrainable : isTrainable = true := h.isTrainable frequencies rfl
    subst htrainable
    exact Or.inl ⟨rfl, rfl, rfl⟩
  | built tables => exact Or.inr ⟨tables, rfl, h.isSound tables rfl, rfl⟩

/-- A codec that was loaded is saved as it was stored. -/
theorem saved_of_ofSaved {saved : SavedCodec S} {codec : Codec S}
    (h : (ofSaved saved).unheard = .ok codec) : codec.saved = saved := by
  obtain ⟨config, isTrainable, frequencies, record⟩ := saved
  rcases ofSaved_eq_ok_iff.mp h with ⟨hnone, htrainable, rfl⟩ | ⟨tables, hsome, htables, rfl⟩
  · cases hnone
    cases htrainable
    rfl
  · cases hsome
    have hcounts : tables.frequencies = frequencies :=
      (Tables.build_eq_ok_iff.mp htables).frequencies_eq
    subst hcounts
    rfl

/-- A record that does not tell of the tree of the stored counts is refused. -/
theorem exists_tree_of_ofSaved {saved : SavedCodec S} {codec : Codec S} {record : TableRecord}
    (h : (ofSaved saved).unheard = .ok codec) (hrecord : saved.record = some record) :
    ∃ tree, (Tree.build saved.frequencies saved.config).unheard = .ok tree ∧
      Tables.Records record tree saved.config := by
  rcases ofSaved_eq_ok_iff.mp h with ⟨hnone, _⟩ | ⟨tables, hsome, htables, _⟩
  · rw [hrecord] at hnone
    cases hnone
  · rw [hrecord, Option.some.injEq] at hsome
    have hderived := Tables.build_eq_ok_iff.mp htables
    exact ⟨tables.tree, hderived.tree_eq, hsome ▸ hderived.records⟩

/-! ### Codecs that come about -/

/-- A lasting property is one of every codec that comes about. -/
theorem IsLasting.of_reachable {property : Codec S → Prop} (hlasting : IsLasting property)
    {codec : Codec S} (h : codec.Reachable) : property codec := by
  induction h with
  | trainable config => exact hlasting.learning config .empty
  | ofFrequencies h => exact hlasting.own _ (hasOwnTables_of_ofFrequencies h).1
  | ofSaved h =>
    rcases ofSaved_eq_ok_iff.mp h with ⟨_, _, rfl⟩ | ⟨tables, _, htables, rfl⟩
    · exact hlasting.learning _ _
    · exact hlasting.own _ (hasOwnTables_of_tables htables _)
  | trainTimes _ symbol occurrences ih => exact (hlasting.keeps_count _).perform ih
  | train _ symbol ih => exact (hlasting.keeps_count _).perform ih
  | trainAll _ symbols ih => exact (hlasting.keeps_count _).perform ih
  | merge _ frequencies ih => exact (hlasting.keeps_count _).perform ih
  | keepAtLeast _ cutoff ih => exact (hlasting.keeps_keepAtLeast cutoff).perform ih
  | build _ ih => exact hlasting.keeps_build.perform ih

/-! ### Both directions -/

/-- Every codec that comes about is loaded as it was saved, with its configuration, its stage, its
counts and all of its tables. What is loaded without an error is saved as it was stored, and if a
record of tables was stored, the codec has the tables that are derived from the stored counts. -/
theorem saving_isLossless :
    (∀ codec : Codec S, codec.Reachable → (ofSaved codec.saved).unheard = .ok codec) ∧
    ∀ (saved : SavedCodec S) (codec : Codec S), (ofSaved saved).unheard = .ok codec →
      codec.saved = saved ∧ ∀ record, saved.record = some record →
        ∃ tables, codec.stage = .built tables ∧
          (Tables.build saved.frequencies saved.config).unheard = .ok tables := by
  constructor
  · intro codec h
    exact (isLasting_isRestorable.of_reachable h).ofSaved_saved
  · intro saved codec h
    refine ⟨saved_of_ofSaved h, ?_⟩
    intro record hrecord
    rcases ofSaved_eq_ok_iff.mp h with ⟨hnone, _⟩ | ⟨tables, _, htables, rfl⟩
    · rw [hrecord] at hnone
      cases hnone
    · exact ⟨tables, rfl, htables⟩

/-- A codec that has counted three letters is loaded as it was saved, before and after its tables
were derived, and so is one that was made from counts. -/
theorem saving_isLossless_of_letters :
    ∃ learned made : Codec Char,
      learned = (Update.perform (trainAll ['a', 'b', 'b']) (trainable .standard)).2.codec ∧
      learned.isBuilt = false ∧ made.isBuilt = true ∧
      (ofSaved learned.saved).unheard = .ok learned ∧
      (ofSaved (Update.perform build learned).2.codec.saved).unheard =
        .ok (Update.perform build learned).2.codec ∧
      (ofSaved made.saved).unheard = .ok made ∧
      ∃ tables, made.stage = .built tables ∧
        (Tables.build made.saved.frequencies made.saved.config).unheard = .ok tables := by
  obtain ⟨hreachable, hloaded⟩ := saving_isLossless (S := Char)
  obtain ⟨made, hmade⟩ := (exists_ofFrequencies_iff
    ((Frequencies.empty.add 'a' 1).add 'b' 2) .strict).mpr
      ⟨by decide, by decide +kernel, by decide +kernel⟩
  obtain ⟨tables, hstage, _⟩ := (hasOwnTables_of_ofFrequencies hmade).1
  have hlearned : Reachable (Update.perform (trainAll ['a', 'b', 'b'])
      (trainable .standard)).2.codec := (Reachable.trainable .standard).trainAll _
  have hrestored := hreachable made (.ofFrequencies hmade)
  have hrecord : made.saved.record = some tables.record := by
    show made.stage.tables?.map Tables.record = _
    rw [hstage]
    rfl
  exact ⟨_, made, rfl, rfl, (hasOwnTables_of_ofFrequencies hmade).1.isBuilt,
    hreachable _ hlearned, hreachable _ hlearned.build, hrestored,
    (hloaded made.saved made hrestored).2 tables.record hrecord⟩

end HuffmanCoding.Codec
