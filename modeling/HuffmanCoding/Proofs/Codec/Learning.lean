import HuffmanCoding.Proofs.Codec.Decoding
import HuffmanCoding.Proofs.Codec.Failures
import HuffmanCoding.Proofs.Training

/-!
# Learning texts, or being given their counts

A codec for texts that learns leaves out rare texts when it is built, and derives its tables from
the counts that it is left with. A codec that is made from given counts leaves out rare texts first
and has its tables from the start. For the counts of some texts and of their characters the two come
out alike (`TextCodec.learning_agrees`): with the same warnings and the same error, or with the same
tables, so that nothing tells them apart when they encode and decode.

Which texts have a codeword of their own is told by how often each was seen
(`Frequencies.Tallies.mem_frequent_iff`), although counts stop at a limit and rare texts are all
kept if there are no others.
-/

set_option autoImplicit false
set_option relaxedAutoImplicit false

namespace HuffmanCoding

/-! ### Frequent texts -/

namespace Frequencies

/-- The symbols that are kept are those that were seen often enough. -/
theorem Tallies.mem_keepAtLeast_iff {S : Type} [Symbol S] {table : Frequencies S} {sums : S → ℕ}
    (h : table.Tallies sums) (cutoff : Weight) (symbol : S) :
    symbol ∈ (table.keepAtLeast cutoff).weights ↔
      0 < sums symbol ∧ cutoff.toNat ≤ sums symbol := by
  have hroom := cutoff.toNat_le
  rw [keepAtLeast, Std.ExtTreeMap.mem_iff_isSome_getElem?, Std.ExtTreeMap.getElem?_filter, h symbol,
    Nat.pos_iff_ne_zero]
  split_ifs with hzero
  · simp [hzero]
  · simp only [Option.pfilter_some, Weight.le_iff, Weight.toNat_ofNat]
    simp [hzero, hroom]

/-- The texts that are kept are those that were seen often enough, or all of them if none was. -/
theorem Tallies.mem_frequent_iff {table : Frequencies String} {sums : String → ℕ}
    (h : table.Tallies sums) (cutoff : Weight) (text : String) :
    text ∈ (table.frequent cutoff).weights ↔ 0 < sums text ∧
      (cutoff.toNat ≤ sums text ∨ ∀ other, 0 < sums other → sums other < cutoff.toNat) := by
  have hempty : (table.keepAtLeast cutoff).isEmpty = true ↔
      ∀ other, 0 < sums other → sums other < cutoff.toNat := by
    rw [isEmpty, Std.ExtTreeMap.isEmpty_iff, Std.ExtTreeMap.eq_empty_iff_forall_not_mem]
    refine forall_congr' fun other ↦ ?_
    rw [h.mem_keepAtLeast_iff cutoff other, not_and, Nat.not_le]
  unfold frequent
  split_ifs with hall
  · rw [h.mem_iff]
    refine (and_iff_left_of_imp fun hseen ↦ ?_).symm
    rcases hall with hone | hrare
    · exact Or.inl (Nat.le_trans hone hseen)
    · exact Or.inr (hempty.mp hrare)
  · rw [h.mem_keepAtLeast_iff cutoff text]
    refine and_congr_right fun _ ↦ (or_iff_left fun hrare ↦ ?_).symm
    exact (not_or.mp hall).2 (hempty.mpr hrare)

end Frequencies

/-! ### Two ways to tables -/

namespace Codec

variable {S : Type} [Symbol S]

/-- A codec that is made from counts has their tables. -/
theorem run_ofFrequencies (frequencies : Frequencies S) (config : TableConfig) (log : WarningLog) :
    (ofFrequencies frequencies config).run log =
      match (Tables.build frequencies config).run log with
      | .ok tables left => .ok ⟨config, false, .built tables⟩ left
      | .error error left => .error error left := by
  unfold ofFrequencies
  rw [EStateM.run_bind]
  cases (Tables.build frequencies config).run log with
  | ok tables left => rfl
  | error error left => rfl

end Codec

namespace TextCodec

/-- Two codecs that nothing tells apart when they encode and decode. -/
structure Agrees (first second : TextCodec) : Prop where
  cutoff_eq : first.cutoff = second.cutoff
  isBuilt : first.isBuilt = true
  texts_eq : first.texts.stage = second.texts.stage
  characters_eq : first.characters.stage = second.characters.stage
  encode_eq : ∀ texts, first.encode texts = second.encode texts
  encodeCounted_eq : ∀ texts, first.encodeCounted texts = second.encodeCounted texts
  decode_eq : ∀ stream, first.decode stream = second.decode stream

/-- Codecs with the same tables agree. -/
theorem agrees_of_stages {first second : TextCodec} (hcutoff : first.cutoff = second.cutoff)
    (hbuilt : first.isBuilt = true) (htexts : first.texts.stage = second.texts.stage)
    (hcharacters : first.characters.stage = second.characters.stage) : first.Agrees second := by
  have htables : first.texts.tables = second.texts.tables := by
    unfold Codec.tables
    rw [htexts]
  have hspell : first.spell = second.spell := by
    funext text
    unfold spell
    rw [hcharacters]
  have hread : (first.readSpelled : Reading String) = second.readSpelled := by
    unfold readSpelled
    rw [hcharacters]
  refine ⟨hcutoff, hbuilt, htexts, hcharacters, fun texts ↦ ?_, fun texts ↦ ?_, fun stream ↦ ?_⟩
  · rw [encode, encode, Codec.encode, Codec.encode, htables, hspell]
  · rw [encodeCounted, encodeCounted, Codec.encodeCounted, Codec.encodeCounted, htables, hspell]
  · rw [decode, decode, Codec.decode, Codec.decode, htables, hread]

/-- A codec that learns and has counted texts and characters. -/
def learner (config : TextConfig) (texts : Frequencies String) (characters : Frequencies Char) :
    TextCodec :=
  ⟨config.cutoff, ⟨config.texts, true, .training texts⟩,
    ⟨config.characters, true, .training characters⟩⟩

/-- Where rare texts have been left out, a codec that has learned and one that is made from counts
fail with the same error or agree, and report the same. -/
theorem run_buildTables_cases_ofKept (config : TextConfig) (kept : Frequencies String)
    (characters : Frequencies Char) (log : WarningLog) :
    (∃ error left,
      (buildTables characters.isEmpty).run ⟨learner config kept characters, log⟩ =
        .error error left ∧ (ofKept kept characters config).run log = .error error left.log) ∨
    ∃ learned made left,
      (buildTables characters.isEmpty).run ⟨learner config kept characters, log⟩ =
        .ok () ⟨learned, left⟩ ∧ (ofKept kept characters config).run log = .ok made left ∧
      learned.Agrees made := by
  have hlearn : (buildTables characters.isEmpty).run ⟨learner config kept characters, log⟩ =
      (onTexts Codec.build >>= fun _ ↦ if (!characters.isEmpty) = true then
        onCharacters Codec.build else pure ()).run ⟨learner config kept characters, log⟩ := rfl
  have htexts := Codec.run_build_training config.texts true kept log
  rw [hlearn, EStateM.run_bind, onTexts, Update.run_onPart, ofKept, EStateM.run_bind,
    Codec.run_ofFrequencies]
  dsimp only [learner]
  rw [htexts]
  cases (Tables.build kept config.texts).run log with
  | error error left => exact Or.inl ⟨error, _, rfl, rfl⟩
  | ok tables left =>
    dsimp only
    by_cases hnone : characters.isEmpty = true
    · obtain rfl : characters = .empty :=
        congrArg Frequencies.mk (Std.ExtTreeMap.isEmpty_iff.mp hnone)
      exact Or.inr ⟨_, _, left, rfl, rfl, agrees_of_stages rfl rfl rfl rfl⟩
    · have hcharacters := Codec.run_build_training config.characters true characters left
      rw [ofCharacters, if_neg hnone, Bool.eq_false_iff.mpr hnone, EStateM.run_bind,
        Codec.run_ofFrequencies, Bool.not_false, if_pos rfl, onCharacters, Update.run_onPart]
      dsimp only
      rw [hcharacters]
      cases (Tables.build characters config.characters).run left with
      | error error last => exact Or.inl ⟨error, _, rfl, rfl⟩
      | ok tables' last => exact Or.inr ⟨_, _, last, rfl, rfl, agrees_of_stages rfl rfl rfl rfl⟩

/-- The texts that were kept have codewords, and no others. -/
theorem hasCode_iff_of_ofKept {kept : Frequencies String} {characters : Frequencies Char}
    {config : TextConfig} {made : TextCodec} {log left : WarningLog}
    (h : (ofKept kept characters config).run log = .ok made left) (text : String) :
    made.texts.HasCode text ↔ text ∈ kept.weights := by
  have hmade := (onlyAdds_ofKept kept characters config).unheard_eq_ok h
  obtain ⟨textCodec, htexts, characterCodec, _, rfl⟩ := ofKept_eq_ok_iff.mp hmade
  obtain ⟨hown, _, hcounts⟩ := Codec.hasOwnTables_of_ofFrequencies htexts
  rw [hown.hasCode_iff, hcounts]

/-! ### Learning texts -/

/-- Counts texts with their characters, and derives the tables. -/
def learn (texts : List String) : Update TextCodec Unit := do
  trainAll texts
  build

def textCounts (texts : List String) : Frequencies String :=
  Frequencies.empty.addAll texts

def characterCounts (texts : List String) : Frequencies Char :=
  Frequencies.empty.addAll (texts.flatMap String.toList)

/-- Both ways to a codec derive tables from the same counts, and have heard the same before. -/
theorem exists_run_learn {config : TextConfig} (h : config.check = .ok ()) (texts : List String)
    (log : WarningLog) :
    ∃ heard,
      (learn texts).run ⟨learner config .empty .empty, log⟩ =
        (buildTables (characterCounts texts).isEmpty).run
          ⟨learner config ((textCounts texts).frequent config.cutoff) (characterCounts texts),
            heard⟩ ∧
      (ofFrequencies (textCounts texts) (characterCounts texts) config).run log =
        (ofKept ((textCounts texts).frequent config.cutoff) (characterCounts texts) config).run
          heard := by
  obtain ⟨heard, hkept⟩ := exists_run_keepFrequent (textCounts texts) config.cutoff log
  refine ⟨heard, ?_, ?_⟩
  · have hcounts (texts : Frequencies String) (characters : Frequencies Char) :
        (learner config texts characters).texts.counts = .ok texts := rfl
    rw [learn, EStateM.run_bind, run_trainAll (hcounts .empty .empty) rfl texts log]
    exact run_build (hcounts (textCounts texts) (characterCounts texts)) hkept
  · rw [ofFrequencies_eq, h]
    show ((textCounts texts).keepFrequent config.cutoff >>= fun kept ↦
      ofKept kept (characterCounts texts) config).run log = _
    rw [EStateM.run_bind, hkept]

/-- A text that occurs at least as often as the cutoff says, or any text that occurs if none occurs
as often. -/
def IsFrequent (cutoff : Weight) (texts : List String) (text : String) : Prop :=
  text ∈ texts ∧
    (cutoff.toNat ≤ texts.count text ∨ ∀ other ∈ texts, texts.count other < cutoff.toNat)

theorem mem_frequent_textCounts_iff (cutoff : Weight) (texts : List String) (text : String) :
    text ∈ ((textCounts texts).frequent cutoff).weights ↔ IsFrequent cutoff texts text := by
  rw [textCounts, (Frequencies.tallies_addAll texts).mem_frequent_iff cutoff text]
  simp only [List.count_pos_iff]
  rfl

/-- What learning some texts and being given their counts come to: the same error and the same
warnings, or codecs that agree, and in which the frequent texts have codewords of their own. -/
inductive ComeOutAlike (cutoff : Weight) (texts : List String) :
    EStateM.Result Error (Monitored TextCodec) Unit → EStateM.Result Error WarningLog TextCodec →
      Prop where
  | refused (error : Error) (left : Monitored TextCodec) :
    ComeOutAlike cutoff texts (.error error left) (.error error left.log)
  | agreed {learned made : TextCodec} (log : WarningLog) (hagrees : learned.Agrees made)
    (hlearned : ∀ text, learned.texts.HasCode text ↔ IsFrequent cutoff texts text)
    (hmade : ∀ text, made.texts.HasCode text ↔ IsFrequent cutoff texts text) :
    ComeOutAlike cutoff texts (.ok () ⟨learned, log⟩) (.ok made log)

/-- Under every configuration that is in order, a codec that learns texts and is built comes out
like one that is made from the counts of the texts and of their characters: both fail with the same
error, or both have the same tables, encode and decode everything alike, and have codewords for the
texts that were seen often enough, or for all texts if none was. -/
theorem learning_agrees (config : TextConfig) (h : config.check = .ok ()) (texts : List String)
    (log : WarningLog) :
    ∃ codec, trainable config = .ok codec ∧ ComeOutAlike config.cutoff texts
      ((learn texts).run ⟨codec, log⟩)
      ((ofFrequencies (textCounts texts) (characterCounts texts) config).run log) := by
  have hcodec : trainable config = .ok (learner config .empty .empty) := by
    rw [trainable, h]
    rfl
  refine ⟨_, hcodec, ?_⟩
  obtain ⟨heard, hlearn, hmake⟩ := exists_run_learn h texts log
  rcases run_buildTables_cases_ofKept config ((textCounts texts).frequent config.cutoff)
    (characterCounts texts) heard with
      ⟨error, left, hlearned, hmade⟩ | ⟨learned, made, left, hlearned, hmade, hagrees⟩
  · rw [hlearn, hlearned, hmake, hmade]
    exact .refused error left
  · rw [hlearn, hlearned, hmake, hmade]
    have hcode (text : String) : made.texts.HasCode text ↔ IsFrequent config.cutoff texts text :=
      (hasCode_iff_of_ofKept hmade text).trans
        (mem_frequent_textCounts_iff config.cutoff texts text)
    refine .agreed left hagrees (fun text ↦ ?_) hcode
    rw [← hcode, Codec.HasCode, Codec.HasCode, hagrees.texts_eq]

/-- With a cutoff of two, a word that occurs twice has a codeword of its own and a word that occurs
once has none, whether the words are learned or counted beforehand. -/
theorem learning_agrees_of_words :
    ∃ codec learned made log, trainable ⟨.standard, .standard, 2⟩ = .ok codec ∧
      (learn ["ab", "c", "ab"]).run ⟨codec, []⟩ = .ok () ⟨learned, log⟩ ∧
      (ofFrequencies (textCounts ["ab", "c", "ab"]) (characterCounts ["ab", "c", "ab"])
        ⟨.standard, .standard, 2⟩).run [] = .ok made log ∧
      learned.Agrees made ∧ learned.texts.HasCode "ab" ∧ ¬ made.texts.HasCode "c" := by
  obtain ⟨codec, hcodec, halike⟩ :=
    learning_agrees ⟨.standard, .standard, 2⟩ (by decide) ["ab", "c", "ab"] []
  obtain ⟨textCodec, htexts⟩ := (Codec.exists_ofFrequencies_iff
    ((textCounts ["ab", "c", "ab"]).frequent 2) .standard).mpr
      ⟨by decide, by decide +kernel, by decide +kernel⟩
  obtain ⟨characterCodec, hcharacters⟩ := (Codec.exists_ofFrequencies_iff
    (characterCounts ["ab", "c", "ab"]) .standard).mpr
      ⟨by decide, by decide +kernel, by decide +kernel⟩
  have hsome : ¬ (characterCounts ["ab", "c", "ab"]).isEmpty = true := by decide +kernel
  have hmakes : (ofFrequencies (textCounts ["ab", "c", "ab"]) (characterCounts ["ab", "c", "ab"])
      ⟨.standard, .standard, 2⟩).unheard = .ok ⟨2, textCodec, characterCodec⟩ :=
    ofFrequencies_eq_ok_iff.mpr ⟨by decide, _, unheard_keepFrequent _ _, textCodec, htexts,
      characterCodec, by rwa [ofCharacters, if_neg hsome], rfl⟩
  generalize hlearn : (learn ["ab", "c", "ab"]).run ⟨codec, []⟩ = learning at halike
  generalize hmake : (ofFrequencies (textCounts ["ab", "c", "ab"])
    (characterCounts ["ab", "c", "ab"]) ⟨.standard, .standard, 2⟩).run [] = making at halike
  cases halike with
  | refused error left =>
    rw [Logged.unheard, Logged.listen, hmake] at hmakes
    cases hmakes
  | agreed log hagrees hlearned hmade =>
    refine ⟨codec, _, _, log, hcodec, hlearn, rfl, hagrees, (hlearned "ab").mpr ?_, ?_⟩
    · exact ⟨by decide, Or.inl (by decide)⟩
    · rw [hmade]
      rintro ⟨_, henough | hnone⟩
      · revert henough
        decide
      · exact absurd (hnone "ab" (by decide)) (by decide)

end TextCodec

end HuffmanCoding
