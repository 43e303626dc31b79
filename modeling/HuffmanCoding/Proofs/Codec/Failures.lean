import HuffmanCoding.Proofs.Codec.InUse
import HuffmanCoding.Proofs.Frequencies

/-!
# Updates that fail

An update of a codec for texts works on the codec for whole texts first and on the one for
characters then. If only the second step fails, the first one is not taken back. So an update that
fails leaves the codec as it was only if the second step cannot fail alone: the two parts have to be
in step (`TextCodec.IsInStep`). This is necessary, too (`forall_isAtomicOn_iff`).

A codec that was made here is in step (`Reachable.isOnCourse`, `IsOnCourse.isInStep`), since its
parts are trained together under configurations that were checked, and there are never too many
characters for a table. Only more texts than there are codewords can be in the way. A codec that was
loaded can have any parts, and then be built although building it failed
(`build_changes_unspellable`).
-/

set_option autoImplicit false
set_option relaxedAutoImplicit false

namespace HuffmanCoding

/-! ### Atomic updates -/

namespace Update

variable {C α : Type} {update : Update C α} {codec : C}

/-- If the update fails, it leaves the codec as it was. -/
def IsAtomicOn (update : Update C α) (codec : C) : Prop :=
  ∀ error, (update.perform codec).1 = .error error → (update.perform codec).2.codec = codec

theorem isAtomicOn_of_ok {value : α} {left : Monitored C}
    (h : update.run ⟨codec, []⟩ = .ok value left) : update.IsAtomicOn codec := by
  intro error herror
  unfold perform at herror
  rw [h] at herror
  cases herror

theorem isAtomicOn_iff_of_error {error : Error} {left : Monitored C}
    (h : update.run ⟨codec, []⟩ = .error error left) :
    update.IsAtomicOn codec ↔ left.codec = codec := by
  unfold IsAtomicOn perform
  rw [h]
  exact ⟨fun hatomic ↦ hatomic error rfl, fun hsame _ _ ↦ hsame⟩

end Update

/-! ### Rare texts -/

/-- The texts that get codewords of their own. -/
def Frequencies.frequent (frequencies : Frequencies String) (cutoff : Weight) :
    Frequencies String :=
  if cutoff ≤ 1 ∨ (frequencies.keepAtLeast cutoff).isEmpty = true then frequencies
  else frequencies.keepAtLeast cutoff

/-- Fewer texts are frequent only if the rare ones are left out. -/
theorem Frequencies.frequent_cases (frequencies : Frequencies String) (cutoff : Weight) :
    frequencies.frequent cutoff = frequencies ∨
      frequencies.frequent cutoff = frequencies.keepAtLeast cutoff ∧
        ¬ (frequencies.keepAtLeast cutoff).isEmpty = true := by
  unfold frequent
  split_ifs with hall
  · exact Or.inl rfl
  · exact Or.inr ⟨rfl, (not_or.mp hall).2⟩

/-! ### Codecs that learn -/

namespace Codec

variable {S : Type} [Symbol S] {codec : Codec S}

/-- The codec learns under a configuration that is in order, and has only counted what was seen. -/
structure IsLearning (codec : Codec S) : Prop where
  check_eq : codec.config.check = .ok ()
  counts_eq_ok : codec.counts = .ok codec.frequencies
  isCounted : codec.frequencies.IsCounted

theorem isLearning_trainable {config : TableConfig} (h : config.check = .ok ()) :
    IsLearning (trainable config : Codec S) where
  check_eq := h
  counts_eq_ok := rfl
  isCounted := Frequencies.isCounted_empty

/-- A codec that learns does so with other counts. -/
theorem IsLearning.training (h : codec.IsLearning) {frequencies : Frequencies S}
    (hcounted : frequencies.IsCounted) :
    IsLearning { codec with stage := .training frequencies } where
  check_eq := h.check_eq
  counts_eq_ok := counts_eq_ok_iff.mpr ⟨(counts_eq_ok_iff.mp h.counts_eq_ok).1, rfl⟩
  isCounted := hcounted

/-- What was seen has tables if it is not too much. -/
theorem isCodable_of_isCounted {frequencies : Frequencies S} {config : TableConfig}
    (hcheck : config.check = .ok ()) (hcounted : frequencies.IsCounted)
    (hsome : ¬ frequencies.isEmpty = true)
    (hsize : frequencies.size < TableConfig.largestAlphabet) :
    Tree.IsCodable frequencies config where
  check_eq := hcheck
  total_ne_zero := hcounted.total_ne_zero hsome
  length_le := by
    rw [Tree.length_alphabet, tokenCount]
    split
    · exact hsize
    · exact Nat.le_of_lt hsize

end Codec

namespace TextCodec

variable {codec : TextCodec}

/-! ### Training -/

def withTexts (codec : TextCodec) (texts : Frequencies String) : TextCodec :=
  { codec with texts := { codec.texts with stage := .training texts } }

def withCounts (codec : TextCodec) (texts : Frequencies String) (characters : Frequencies Char) :
    TextCodec :=
  { codec.withTexts texts with
    characters := { codec.characters with stage := .training characters } }

/-- A text is counted, and then its characters are. -/
theorem run_train (text : String) (codec : TextCodec) (log : WarningLog) :
    (train text).run ⟨codec, log⟩ = match codec.texts.counts, codec.characters.counts with
      | .error error, _ => .error error ⟨codec, log⟩
      | .ok texts, .error error => .error error ⟨codec.withTexts (texts.add text 1), log⟩
      | .ok texts, .ok characters =>
        .ok () ⟨codec.withCounts (texts.add text 1) (characters.addAll text.toList), log⟩ := by
  have htexts := Codec.run_count (·.add text 1) codec.texts log
  have hcharacters := Codec.run_count (·.addAll text.toList) codec.characters log
  show (onTexts (Codec.count (·.add text 1)) >>= fun _ ↦
    onCharacters (Codec.count (·.addAll text.toList))).run ⟨codec, log⟩ = _
  rw [EStateM.run_bind, onTexts, Update.run_onPart, htexts]
  cases codec.texts.counts with
  | error error => rfl
  | ok texts =>
    dsimp only
    rw [onCharacters, Update.run_onPart]
    dsimp only
    rw [hcharacters]
    cases codec.characters.counts with
    | error error => rfl
    | ok characters => rfl

/-- If both parts learn, any texts are counted with their characters. -/
theorem run_trainAll {texts : Frequencies String} {characters : Frequencies Char}
    (htexts : codec.texts.counts = .ok texts)
    (hcharacters : codec.characters.counts = .ok characters)
    (sequence : List String) (log : WarningLog) :
    (trainAll sequence).run ⟨codec, log⟩ = .ok ()
      ⟨codec.withCounts (texts.addAll sequence)
        (characters.addAll (sequence.flatMap String.toList)), log⟩ := by
  induction sequence generalizing codec texts characters with
  | nil =>
    have hsame : codec.withCounts texts characters = codec := by
      rw [withCounts, withTexts, ← (Codec.counts_eq_ok_iff.mp htexts).2,
        ← (Codec.counts_eq_ok_iff.mp hcharacters).2]
    show EStateM.Result.ok () _ =
      EStateM.Result.ok () (Monitored.mk (codec.withCounts texts characters) log)
    rw [hsame]
  | cons text sequence ih =>
    have hrun := run_train text codec log
    rw [htexts, hcharacters] at hrun
    show (train text >>= fun _ ↦ trainAll sequence).run ⟨codec, log⟩ = _
    rw [List.flatMap_cons, Frequencies.addAll_append, EStateM.run_bind, hrun]
    exact ih (Codec.counts_eq_ok_iff.mpr ⟨(Codec.counts_eq_ok_iff.mp htexts).1, rfl⟩)
      (Codec.counts_eq_ok_iff.mpr ⟨(Codec.counts_eq_ok_iff.mp hcharacters).1, rfl⟩)

/-! ### Building -/

/-- The end of building: the table of texts is derived, and then that of characters if there are
any. -/
def buildTables (isEmpty : Bool) : Update TextCodec Unit := do
  onTexts Codec.build
  if !isEmpty then onCharacters Codec.build

theorem exists_run_keepFrequent (texts : Frequencies String) (cutoff : Weight)
    (log : WarningLog) :
    ∃ heard, (texts.keepFrequent cutoff).run log = .ok (texts.frequent cutoff) heard :=
  ((onlyAdds_keepFrequent texts cutoff).exists_run_eq_ok_iff log).mpr
    (unheard_keepFrequent texts cutoff)

/-- Before tables are derived, the rare texts are left out. -/
theorem run_build {texts : Frequencies String} (h : codec.texts.counts = .ok texts)
    {log heard : WarningLog}
    (hkept : (texts.keepFrequent codec.cutoff).run log = .ok (texts.frequent codec.cutoff) heard) :
    build.run ⟨codec, log⟩ = (buildTables codec.characters.frequencies.isEmpty).run
      ⟨codec.withTexts (texts.frequent codec.cutoff), heard⟩ := by
  obtain ⟨hlearns, hstage⟩ := Codec.counts_eq_ok_iff.mp h
  have hcounts : codec.texts.frequencies = texts := by
    rw [Codec.frequencies, hstage]
    rfl
  have hbuilt : ¬ codec.texts.isBuilt = true := by
    rw [Codec.isBuilt, hstage]
    exact Bool.false_ne_true
  show (if codec.texts.isBuilt = true then (throw .alreadyBuilt : Update TextCodec Unit)
    else Update.hearing (codec.texts.frequencies.keepFrequent codec.cutoff) >>= fun kept ↦
      if kept.size < codec.texts.frequencies.size then
        onTexts (Codec.keepAtLeast codec.cutoff) >>= fun _ ↦
          buildTables codec.characters.frequencies.isEmpty
      else buildTables codec.characters.frequencies.isEmpty).run ⟨codec, log⟩ = _
  rw [if_neg hbuilt, hcounts, EStateM.run_bind, Update.run_hearing_ok hkept]
  change (if (texts.frequent codec.cutoff).size < texts.size then _ else _ :
    Update TextCodec Unit).run ⟨codec, heard⟩ = _
  by_cases hrare : (texts.frequent codec.cutoff).size < texts.size
  · have hfrequent : texts.frequent codec.cutoff = texts.keepAtLeast codec.cutoff := by
      rcases texts.frequent_cases codec.cutoff with hall | ⟨hkeep, _⟩
      · rw [hall] at hrare
        exact absurd hrare (Nat.lt_irrefl _)
      · exact hkeep
    have hkeep := Codec.run_keepAtLeast codec.cutoff codec.texts heard
    rw [h] at hkeep
    rw [if_pos hrare, EStateM.run_bind, onTexts, Update.run_onPart, hkeep, hfrequent]
    rfl
  · have hfrequent : texts.frequent codec.cutoff = texts := by
      rcases texts.frequent_cases codec.cutoff with hall | ⟨hkeep, _⟩
      · exact hall
      · rw [hkeep] at hrare ⊢
        exact Frequencies.keepAtLeast_eq_self hrare
    rw [if_neg hrare, hfrequent, withTexts, ← hstage]

theorem exists_run_build {texts : Frequencies String} (h : codec.texts.counts = .ok texts)
    (log : WarningLog) :
    ∃ heard, build.run ⟨codec, log⟩ = (buildTables codec.characters.frequencies.isEmpty).run
      ⟨codec.withTexts (texts.frequent codec.cutoff), heard⟩ := by
  obtain ⟨heard, hkept⟩ := exists_run_keepFrequent texts codec.cutoff log
  exact ⟨heard, run_build h hkept⟩

/-- What remains when the tables were to be derived: nothing changed if there is no table of texts,
and there is one otherwise. -/
theorem run_buildTables_cases (isEmpty : Bool) (codec : TextCodec) (log : WarningLog) :
    (¬ codec.texts.CanBuild ∧
      ∃ error left, (buildTables isEmpty).run ⟨codec, log⟩ = .error error ⟨codec, left⟩) ∨
    (codec.texts.CanBuild ∧ (isEmpty = true ∨ codec.characters.CanBuild) ∧
      ∃ left, left.codec.texts.isBuilt = true ∧
        (buildTables isEmpty).run ⟨codec, log⟩ = .ok () left) ∨
    (codec.texts.CanBuild ∧ ¬ (isEmpty = true ∨ codec.characters.CanBuild) ∧
      ∃ error left, left.codec.texts.isBuilt = true ∧
        (buildTables isEmpty).run ⟨codec, log⟩ = .error error left) := by
  have hbuild (monitored : Monitored TextCodec) : (buildTables isEmpty).run monitored =
      (onTexts Codec.build >>= fun _ ↦
        if (!isEmpty) = true then onCharacters Codec.build else pure ()).run monitored := rfl
  rw [hbuild, EStateM.run_bind, onTexts, Update.run_onPart]
  rcases codec.texts.run_build_cases_of_canBuild log with
    ⟨hcan, tables, heard, hrun⟩ | ⟨hcannot, error, heard, hrun⟩
  · rw [hrun]
    cases isEmpty with
    | true => exact Or.inr (Or.inl ⟨hcan, Or.inl rfl, _, rfl, rfl⟩)
    | false =>
      show _ ∨ (_ ∧ _ ∧ ∃ left, _ ∧ (onCharacters Codec.build).run _ = _) ∨
        (_ ∧ _ ∧ ∃ error left, _ ∧ (onCharacters Codec.build).run _ = _)
      rw [onCharacters, Update.run_onPart]
      dsimp only
      rcases codec.characters.run_build_cases_of_canBuild heard with
        ⟨hcan', tables', last, hrun'⟩ | ⟨hcannot', error, last, hrun'⟩
      · rw [hrun']
        exact Or.inr (Or.inl ⟨hcan, Or.inr hcan', _, rfl, rfl⟩)
      · rw [hrun']
        refine Or.inr (Or.inr ⟨hcan, ?_, error, _, rfl, rfl⟩)
        exact not_or.mpr ⟨Bool.false_ne_true, hcannot'⟩
  · rw [hrun]
    exact Or.inl ⟨hcannot, error, heard, rfl⟩

/-! ### Parts that are in step -/

/-- The texts that get codewords of their own when the codec is built. -/
def kept (codec : TextCodec) : Frequencies String :=
  codec.texts.frequencies.frequent codec.cutoff

/-- As long as the codec for whole texts has no tables, no update that it accepts meets an obstacle
in the codec for characters, and no text is left out in vain. -/
structure IsInStep (codec : TextCodec) : Prop where
  isBuilt_characters : codec.texts.isBuilt = false → codec.characters.isBuilt = false
  isCodable_characters : codec.texts.isBuilt = false →
    Tree.IsCodable codec.kept codec.texts.config → codec.characters.frequencies.isEmpty = true ∨
      Tree.IsCodable codec.characters.frequencies codec.characters.config
  kept_eq : codec.texts.isBuilt = false → ¬ Tree.IsCodable codec.kept codec.texts.config →
    codec.kept = codec.texts.frequencies

theorem isInStep_of_isBuilt (h : codec.texts.isBuilt = true) : codec.IsInStep := by
  have hnot : ¬ codec.texts.isBuilt = false := by
    rw [h]
    decide
  exact ⟨fun hfalse ↦ absurd hfalse hnot, fun hfalse ↦ absurd hfalse hnot,
    fun hfalse ↦ absurd hfalse hnot⟩

theorem run_build_of_isBuilt (h : codec.texts.isBuilt = true) (log : WarningLog) :
    build.run ⟨codec, log⟩ = .error .alreadyBuilt ⟨codec, log⟩ := by
  show (if codec.texts.isBuilt = true then (throw .alreadyBuilt : Update TextCodec Unit)
    else _).run ⟨codec, log⟩ = _
  rw [if_pos h]
  rfl

/-- An update is refused at once by a codec that has its table of texts. -/
theorem isAtomicOn_of_isBuilt (h : codec.texts.isBuilt = true) {update : Update TextCodec Unit}
    (hupdate : Operations.Updates update) : update.IsAtomicOn codec := by
  obtain ⟨error, herror⟩ := Codec.exists_counts_eq_error h
  have htrain (text : String) : (train text).run ⟨codec, []⟩ = .error error ⟨codec, []⟩ := by
    rw [run_train, herror]
  cases hupdate with
  | train text => exact (Update.isAtomicOn_iff_of_error (htrain text)).mpr rfl
  | trainAll sequence =>
    cases sequence with
    | nil => exact Update.isAtomicOn_of_ok rfl
    | cons text sequence =>
      have hrun : (trainAll (text :: sequence)).run ⟨codec, []⟩ = .error error ⟨codec, []⟩ := by
        show (train text >>= fun _ ↦ trainAll sequence).run ⟨codec, []⟩ = _
        rw [EStateM.run_bind, htrain]
      exact (Update.isAtomicOn_iff_of_error hrun).mpr rfl
  | build => exact (Update.isAtomicOn_iff_of_error (run_build_of_isBuilt h [])).mpr rfl

section Counting

variable {texts : Frequencies String} (h : codec.texts.counts = .ok texts)

include h

/-- Counting a text leaves the codec as it was or succeeds if the characters can be counted. If they
cannot, a text that was never seen is counted all the same. -/
theorem forall_isAtomicOn_train_iff :
    (∀ text, (train text).IsAtomicOn codec) ↔
      ∃ characters, codec.characters.counts = .ok characters := by
  constructor
  · intro hatomic
    obtain ⟨text, hnew⟩ := Infinite.exists_notMem_finset texts.weights.keys.toFinset
    rw [List.mem_toFinset, Std.ExtTreeMap.mem_keys] at hnew
    have hrun := run_train text codec []
    rw [h] at hrun
    cases hcharacters : codec.characters.counts with
    | ok characters => exact ⟨characters, rfl⟩
    | error error =>
      rw [hcharacters] at hrun
      have hsame := (Update.isAtomicOn_iff_of_error hrun).mp (hatomic text)
      have hstage : Stage.training (texts.add text 1) = codec.texts.stage :=
        congrArg (fun codec : TextCodec ↦ codec.texts.stage) hsame
      rw [(Codec.counts_eq_ok_iff.mp h).2, Stage.training.injEq] at hstage
      rw [← hstage] at hnew
      exact absurd (texts.mem_add text) hnew
  · rintro ⟨characters, hcharacters⟩ text
    have hrun := run_train text codec []
    rw [h, hcharacters] at hrun
    exact Update.isAtomicOn_of_ok hrun

/-- Building leaves the codec as it was or succeeds if the characters have a table as soon as the
texts have one, and if no text is left out for nothing. -/
theorem isAtomicOn_build_iff :
    build.IsAtomicOn codec ↔
      (Tree.IsCodable (texts.frequent codec.cutoff) codec.texts.config →
        codec.characters.frequencies.isEmpty = true ∨ codec.characters.CanBuild) ∧
      (¬ Tree.IsCodable (texts.frequent codec.cutoff) codec.texts.config →
        texts.frequent codec.cutoff = texts) := by
  obtain ⟨hlearns, hstage⟩ := Codec.counts_eq_ok_iff.mp h
  obtain ⟨heard, hbuild⟩ := exists_run_build h []
  have hcan : (codec.withTexts (texts.frequent codec.cutoff)).texts.CanBuild ↔
      Tree.IsCodable (texts.frequent codec.cutoff) codec.texts.config :=
    ⟨fun hcan ↦ hcan.isCodable, fun hcodable ↦ ⟨rfl, hcodable⟩⟩
  rw [← hcan]
  rcases run_buildTables_cases codec.characters.frequencies.isEmpty
    (codec.withTexts (texts.frequent codec.cutoff)) heard with
      ⟨hcannot, error, left, hrun⟩ | ⟨hbuilds, hcharacters, left, _, hrun⟩ |
        ⟨hbuilds, hobstacle, error, left, hleft, hrun⟩
  · rw [Update.isAtomicOn_iff_of_error (hbuild.trans hrun),
      and_iff_right fun hbuilds ↦ absurd hbuilds hcannot, imp_iff_right hcannot]
    constructor
    · intro hsame
      have hcounts : Stage.training (texts.frequent codec.cutoff) = codec.texts.stage :=
        congrArg (fun codec : TextCodec ↦ codec.texts.stage) hsame
      rw [hstage, Stage.training.injEq] at hcounts
      exact hcounts
    · intro hsame
      rw [hsame, withTexts, ← hstage]
  · exact iff_of_true (Update.isAtomicOn_of_ok (hbuild.trans hrun))
      ⟨fun _ ↦ hcharacters, fun hcannot ↦ absurd hbuilds hcannot⟩
  · refine iff_of_false (fun hatomic ↦ ?_) fun hall ↦ hobstacle (hall.1 hbuilds)
    rw [Update.isAtomicOn_iff_of_error (hbuild.trans hrun)] at hatomic
    rw [hatomic, Codec.isBuilt, hstage] at hleft
    cases hleft

end Counting

/-- The parts of a codec are in step exactly if no update that fails changes the codec. -/
theorem forall_isAtomicOn_iff (h : codec.IsRestorable) :
    (∀ update, Operations.Updates update → update.IsAtomicOn codec) ↔ codec.IsInStep := by
  cases hbuilt : codec.texts.isBuilt with
  | true =>
    exact iff_of_true (fun update hupdate ↦ isAtomicOn_of_isBuilt hbuilt hupdate)
      (isInStep_of_isBuilt hbuilt)
  | false =>
    have htexts := h.texts.counts_eq_ok hbuilt
    constructor
    · intro hatomic
      obtain ⟨characters, hcharacters⟩ :=
        (forall_isAtomicOn_train_iff htexts).mp fun text ↦ hatomic _ (.train text)
      obtain ⟨hspelled, hkept⟩ := (isAtomicOn_build_iff htexts).mp (hatomic _ .build)
      exact ⟨fun _ ↦ Codec.isBuilt_eq_false_of_counts hcharacters,
        fun _ hcodable ↦ (hspelled hcodable).imp_right (·.isCodable), fun _ ↦ hkept⟩
    · intro hstep update hupdate
      have hcharacters := h.characters.counts_eq_ok (hstep.isBuilt_characters hbuilt)
      cases hupdate with
      | train text => exact (forall_isAtomicOn_train_iff htexts).mpr ⟨_, hcharacters⟩ text
      | trainAll sequence =>
        exact Update.isAtomicOn_of_ok (run_trainAll htexts hcharacters sequence [])
      | build =>
        refine (isAtomicOn_build_iff htexts).mpr ⟨fun hcodable ↦ ?_, hstep.kept_eq hbuilt⟩
        exact (hstep.isCodable_characters hbuilt hcodable).imp_right fun hspelled ↦
          ⟨hstep.isBuilt_characters hbuilt, hspelled⟩

/-! ### Codecs that were not loaded -/

/-- Either the codec has its table of texts, or both parts learn. -/
def IsOnCourse (codec : TextCodec) : Prop :=
  codec.texts.isBuilt = true ∨ codec.texts.IsLearning ∧ codec.characters.IsLearning

theorem isCounted_frequent {frequencies : Frequencies String} (h : frequencies.IsCounted)
    (cutoff : Weight) : (frequencies.frequent cutoff).IsCounted := by
  rcases frequencies.frequent_cases cutoff with hall | ⟨hkeep, _⟩
  · rw [hall]
    exact h
  · rw [hkeep]
    exact h.keepAtLeast cutoff

theorem keeps_train_isOnCourse (text : String) : (train text).Keeps IsOnCourse := by
  rintro ⟨codec, log⟩ (hbuilt | ⟨htexts, hcharacters⟩)
  · obtain ⟨error, herror⟩ := Codec.exists_counts_eq_error hbuilt
    rw [run_train, herror]
    exact Or.inl hbuilt
  · rw [run_train, htexts.counts_eq_ok, hcharacters.counts_eq_ok]
    exact Or.inr ⟨htexts.training (htexts.isCounted.add text 1),
      hcharacters.training (hcharacters.isCounted.addAll _)⟩

theorem keeps_build_isOnCourse : build.Keeps IsOnCourse := by
  rintro ⟨codec, log⟩ (hbuilt | ⟨htexts, hcharacters⟩)
  · rw [run_build_of_isBuilt hbuilt]
    exact Or.inl hbuilt
  · obtain ⟨heard, hbuild⟩ := exists_run_build htexts.counts_eq_ok log
    rw [hbuild]
    rcases run_buildTables_cases codec.characters.frequencies.isEmpty
      (codec.withTexts (codec.texts.frequencies.frequent codec.cutoff)) heard with
        ⟨_, error, left, hrun⟩ | ⟨_, _, left, hleft, hrun⟩ | ⟨_, _, error, left, hleft, hrun⟩
    · rw [hrun]
      exact Or.inr ⟨htexts.training (isCounted_frequent htexts.isCounted _), hcharacters⟩
    · rw [hrun]
      exact Or.inl hleft
    · rw [hrun]
      exact Or.inl hleft

/-- A codec that was not loaded is on course. -/
theorem Reachable.isOnCourse (h : codec.Reachable) : codec.IsOnCourse := by
  induction h with
  | trainable h =>
    obtain ⟨_, hcheck, hpure⟩ := Outcome.bind_eq_ok_iff.mp h
    cases hpure
    obtain ⟨_, htexts, hrest⟩ := Outcome.bind_eq_ok_iff.mp hcheck
    obtain ⟨_, hcharacters, _⟩ := Outcome.bind_eq_ok_iff.mp hrest
    exact Or.inr ⟨Codec.isLearning_trainable htexts, Codec.isLearning_trainable hcharacters⟩
  | ofFrequencies h =>
    obtain ⟨_, kept, _, textCodec, hmade, _, _, rfl⟩ := ofFrequencies_eq_ok_iff.mp h
    exact Or.inl (Codec.hasOwnTables_of_ofFrequencies hmade).1.isBuilt
  | train _ text ih => exact (keeps_train_isOnCourse text).perform ih
  | trainAll _ texts ih => exact (Update.keeps_forM keeps_train_isOnCourse).perform ih
  | build _ ih => exact keeps_build_isOnCourse.perform ih

/-- The parts of a codec on course are in step if there are not too many texts. -/
theorem IsOnCourse.isInStep (h : codec.IsOnCourse)
    (hsize : codec.texts.frequencies.size < TableConfig.largestAlphabet) : codec.IsInStep := by
  rcases h with hbuilt | ⟨htexts, hcharacters⟩
  · exact isInStep_of_isBuilt hbuilt
  · refine ⟨fun _ ↦ Codec.isBuilt_eq_false_of_counts hcharacters.counts_eq_ok, fun _ _ ↦ ?_,
      fun _ hnone ↦ ?_⟩
    · by_cases hempty : codec.characters.frequencies.isEmpty = true
      · exact Or.inl hempty
      · refine Or.inr (Codec.isCodable_of_isCounted hcharacters.check_eq hcharacters.isCounted
          hempty ?_)
        exact Nat.lt_of_le_of_lt (Frequencies.size_le_of_characters _) (by decide)
    · rcases codec.texts.frequencies.frequent_cases codec.cutoff with hall | ⟨hkeep, hsome⟩
      · exact hall
      · refine absurd ?_ hnone
        rw [kept, hkeep]
        exact Codec.isCodable_of_isCounted htexts.check_eq (htexts.isCounted.keepAtLeast _) hsome
          (Nat.lt_of_le_of_lt (Frequencies.size_keepAtLeast_le _ _) hsize)

/-- A codec that was not loaded is in use. -/
theorem Reachable.inUse (h : codec.Reachable) : InUse codec := by
  induction h with
  | trainable h => exact .made (.trainable h)
  | ofFrequencies h => exact .made (.ofFrequencies h)
  | train _ text ih => exact ih.updated (.train text)
  | trainAll _ texts ih => exact ih.updated (.trainAll texts)
  | build _ ih => exact ih.updated .build

/-- No update that fails changes a codec for texts, which was made or loaded and then updated in any
way, exactly if the parts of the codec are in step. They always are, whatever was done with the
codec, if it was not loaded and has less texts than there are codewords. -/
theorem failures_areAtomic_iff (codec : TextCodec) (h : InUse codec) :
    ((∀ update, Operations.Updates update → update.IsAtomicOn codec) ↔ codec.IsInStep) ∧
      (codec.Reachable → codec.texts.frequencies.size < TableConfig.largestAlphabet →
        ∀ update, Operations.Updates update → update.IsAtomicOn codec) := by
  have hiff := forall_isAtomicOn_iff (isPreserved_isRestorable.property h)
  exact ⟨hiff, fun hreachable hsize ↦ hiff.mpr (hreachable.isOnCourse.isInStep hsize)⟩

/-- A codec that has counted a text, and the character of the text with a weight of zero. -/
def unspellable : TextCodec :=
  ⟨1, ⟨.standard, true, .training (Frequencies.empty.add "a" 1)⟩,
    ⟨.standard, true, .training (Frequencies.empty.replace 'a' 0)⟩⟩

theorem ofBytes_unspellable : Binary.ofBytes (Binary.encode unspellable) = .ok unspellable := by
  have hlasting {S : Type} [Symbol S] := Codec.isLasting_isRestorable (S := S)
  have hrestorable : unspellable.IsRestorable := ⟨hlasting.learning _ _, hlasting.learning _ _⟩
  exact Binary.ofBytes_of_gives (hrestorable.readsBack (by decide +kernel))

/-- There is a table for the text. -/
theorem isCodable_kept_unspellable : Tree.IsCodable unspellable.kept unspellable.texts.config :=
  ⟨rfl, by decide +kernel, by decide +kernel⟩

/-- There is none for the character. -/
theorem not_isCodable_unspellable : ¬ (unspellable.characters.frequencies.isEmpty = true ∨
    Tree.IsCodable unspellable.characters.frequencies unspellable.characters.config) := by
  rintro (hempty | hcodable)
  · revert hempty
    decide +kernel
  · exact hcodable.total_ne_zero (by decide +kernel)

/-- A codec that has learned a word is left as it was when something fails. One that was loaded with
a character of weight zero is not. -/
theorem failures_areAtomic_iff_of_two_codecs :
    ∃ learned : TextCodec, learned.Reachable ∧
      learned.texts.frequencies.size < TableConfig.largestAlphabet ∧
      (∀ update, Operations.Updates update → update.IsAtomicOn learned) ∧
      InUse unspellable ∧
        ∃ update, Operations.Updates update ∧ ¬ update.IsAtomicOn unspellable := by
  have hmade : TextCodec.trainable .standard =
      .ok ⟨1, .trainable .standard, .trainable .standard⟩ :=
    rfl
  have hlearned := (Reachable.trainable hmade).train "ab"
  have hsize : (Update.perform (train "ab") ⟨1, .trainable .standard,
      .trainable .standard⟩).2.codec.texts.frequencies.size < TableConfig.largestAlphabet := by
    decide +kernel
  have huse : InUse unspellable := .loaded ofBytes_unspellable
  have hnot := mt (failures_areAtomic_iff unspellable huse).1.mp fun hstep ↦
    not_isCodable_unspellable (hstep.isCodable_characters rfl isCodable_kept_unspellable)
  refine ⟨_, hlearned, hsize, (failures_areAtomic_iff _ hlearned.inUse).2 hlearned hsize, huse, ?_⟩
  by_contra hnone
  refine hnot fun update hupdate ↦ ?_
  by_contra hchanged
  exact hnone ⟨update, hupdate, hchanged⟩

/-- Building a codec that was loaded fails on account of a character of weight zero, and leaves a
codec that is built. -/
theorem build_changes_unspellable :
    Binary.ofBytes (Binary.encode unspellable) = .ok unspellable ∧
      unspellable.isBuilt = false ∧ (∃ error, (build.perform unspellable).1 = .error error) ∧
      (build.perform unspellable).2.codec.isBuilt = true ∧ ¬ build.IsAtomicOn unspellable := by
  have hcounts : unspellable.texts.counts = .ok unspellable.texts.frequencies := rfl
  obtain ⟨heard, hbuild⟩ := exists_run_build hcounts []
  have hcharacters : ¬ (unspellable.characters.frequencies.isEmpty = true ∨
      unspellable.characters.CanBuild) :=
    fun h ↦ not_isCodable_unspellable (h.imp_right (·.isCodable))
  rcases run_buildTables_cases unspellable.characters.frequencies.isEmpty
    (unspellable.withTexts unspellable.kept) heard with
      ⟨hcannot, _⟩ | ⟨_, hcan, _⟩ | ⟨_, _, error, left, hleft, hrun⟩
  · exact absurd ⟨rfl, isCodable_kept_unspellable⟩ hcannot
  · exact absurd hcan hcharacters
  · have hfails : build.perform unspellable = (.error error, left) := by
      unfold Update.perform
      rw [hbuild.trans hrun]
    refine ⟨ofBytes_unspellable, rfl, ⟨error, by rw [hfails]⟩, by rw [hfails]; exact hleft, ?_⟩
    rw [Update.isAtomicOn_iff_of_error (hbuild.trans hrun)]
    intro hsame
    rw [hsame] at hleft
    cases hleft

end TextCodec

end HuffmanCoding
