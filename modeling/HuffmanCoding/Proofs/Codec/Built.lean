import HuffmanCoding.Codec.Lifecycle
import HuffmanCoding.Proofs.Codec.Update
import HuffmanCoding.Proofs.IntoBytes
import HuffmanCoding.Proofs.Tables
import HuffmanCoding.Proofs.WindowDecoder

/-!
# Codecs that are built

A codec that has its tables has those of its own counts (`Codec.HasOwnTables`), as it does when it
is made from given counts (`hasOwnTables_of_ofFrequencies`). So its decoder serves its codebook,
which is a prefix code and has an escape if the configuration sets one aside.
-/

set_option autoImplicit false
set_option relaxedAutoImplicit false

namespace HuffmanCoding

variable {S : Type} [Symbol S]

/-! ### Derived tables -/

namespace Tables

variable {frequencies : Frequencies S} {config : TableConfig} {tables : Tables S}

/-- The decoder of derived tables serves the codebook. -/
theorem IsDerived.serves (h : tables.IsDerived frequencies config) :
    tables.decoder.Serves tables.book.rows where
  tokens_eq := h.tokens_eq
  holds := by
    obtain ⟨hwidth, hholds⟩ := WindowTable.holds_of_build h.table_eq
    rw [hwidth]
    exact hholds
  length_le :=
    calc tables.book.rows.length = tokenCount frequencies config := h.size_eq
      _ ≤ TableConfig.largestAlphabet := h.isCodable.tokenCount_le
      _ ≤ UInt32.size := by decide

/-- No codeword has more than 32 bits. -/
theorem IsDerived.isNarrow (h : tables.IsDerived frequencies config) : tables.book.IsNarrow := by
  have hlongest := Tree.longest_le_of_build h.tree_eq
  intro token codeword hcodeword
  obtain ⟨row, hrow, _, rfl⟩ := (h.isPrefixCode.codewordFor?_eq_some_iff token).mp hcodeword
  have hfits := (h.isPrefixCode.fits row hrow).length_le
  rw [h.book_eq, Codebook.toNat_longest_ofTree hlongest] at hfits
  exact hfits.trans hlongest

/-- The codebook has an escape if the configuration sets one aside. -/
theorem IsDerived.isSome_escape_iff (h : tables.IsDerived frequencies config) :
    tables.book.escape.isSome = true ↔ config.hasEscape = true := by
  rw [← Tree.escape_mem_alphabet_iff frequencies config, ← h.mem_tokens_iff, List.mem_map,
    Option.isSome_iff_exists]
  constructor
  · rintro ⟨codeword, hcodeword⟩
    obtain ⟨row, hrow, htoken, _⟩ := h.isPrefixCode.escape_eq_some_iff.mp hcodeword
    exact ⟨row, hrow, htoken⟩
  · rintro ⟨row, hrow, htoken⟩
    exact ⟨row.codeword, h.isPrefixCode.escape_eq_some_iff.mpr ⟨row, hrow, htoken, rfl⟩⟩

/-- What a record tells of a tree: the way to the escape, if the configuration sets one aside, and
the length of the longest codeword. -/
structure Records (record : TableRecord) (tree : Tree S) (config : TableConfig) : Prop where
  isSome_escape_iff : record.escape.isSome = true ↔ config.hasEscape = true
  escape_spells : ∀ codeword, record.escape = some codeword →
    ∃ way ∈ tree.ways, way.1.token = .escape ∧ codeword.path = way.2
  longest_eq : record.longest.toNat = tree.longest

/-- The record of derived tables is one of their tree. -/
theorem IsDerived.records (h : tables.IsDerived frequencies config) :
    Records tables.record tables.tree config where
  isSome_escape_iff := h.isSome_escape_iff
  escape_spells := by
    intro codeword hcodeword
    obtain ⟨row, hrow, htoken, rfl⟩ := h.isPrefixCode.escape_eq_some_iff.mp hcodeword
    rw [h.book_eq] at hrow
    obtain ⟨way, hway, rfl⟩ := Codebook.exists_way_of_mem_rows hrow
    exact ⟨way, hway, htoken, Codebook.path_ofWay (Tree.longest_le_of_build h.tree_eq) hway⟩
  longest_eq := h.isFullWithin.tree_longest.symm

end Tables

/-! ### Built codecs -/

namespace Codec

/-- The codec has its tables, and they are those of its counts. -/
def HasOwnTables (codec : Codec S) : Prop :=
  ∃ tables, codec.stage = .built tables ∧
    (Tables.build codec.frequencies codec.config).unheard = .ok tables

theorem isBuilt_iff {codec : Codec S} :
    codec.isBuilt = true ↔ ∃ tables, codec.stage = .built tables := by
  unfold isBuilt
  cases codec.stage with
  | training frequencies => simp [Stage.tables?]
  | built tables => simp [Stage.tables?]

theorem HasOwnTables.isBuilt {codec : Codec S} (h : codec.HasOwnTables) : codec.isBuilt = true := by
  obtain ⟨tables, hstage, _⟩ := h
  exact isBuilt_iff.mpr ⟨tables, hstage⟩

/-- The symbol has a codeword in the tables of the codec. -/
def HasCode (codec : Codec S) (symbol : S) : Prop :=
  ∃ tables codeword, codec.stage = .built tables ∧ tables.book.codewordOf? symbol = some codeword

/-- The tables of the codec have a codeword that announces a literal. -/
def HasEscape (codec : Codec S) : Prop :=
  ∃ tables escape, codec.stage = .built tables ∧ tables.book.escape = some escape

/-- A codec with the tables of some counts, whether it learns or not. -/
theorem hasOwnTables_of_tables {frequencies : Frequencies S} {config : TableConfig}
    {tables : Tables S} (h : (Tables.build frequencies config).unheard = .ok tables)
    (isTrainable : Bool) : HasOwnTables ⟨config, isTrainable, .built tables⟩ := by
  refine ⟨tables, rfl, ?_⟩
  have hcounts : tables.frequencies = frequencies := (Tables.build_eq_ok_iff.mp h).frequencies_eq
  show (Tables.build tables.frequencies config).unheard = .ok tables
  rw [hcounts]
  exact h

theorem onlyAdds_ofFrequencies (frequencies : Frequencies S) (config : TableConfig) :
    (ofFrequencies frequencies config).OnlyAdds :=
  .bind (Tables.onlyAdds_build _ _) fun _ ↦ .pure _

/-- A codec that was made from given counts has their tables. -/
theorem hasOwnTables_of_ofFrequencies {frequencies : Frequencies S} {config : TableConfig}
    {codec : Codec S} (h : (ofFrequencies frequencies config).unheard = .ok codec) :
    codec.HasOwnTables ∧ codec.config = config ∧ codec.frequencies = frequencies := by
  unfold ofFrequencies at h
  rw [Logged.unheard_bind fun _ ↦ .pure _, Outcome.bind_eq_ok_iff] at h
  obtain ⟨tables, htables, hpure⟩ := h
  cases hpure
  exact ⟨hasOwnTables_of_tables htables false, rfl,
    (Tables.build_eq_ok_iff.mp htables).frequencies_eq⟩

/-- A codec can be made from the counts that are codable. -/
theorem exists_ofFrequencies_iff (frequencies : Frequencies S) (config : TableConfig) :
    (∃ codec, (ofFrequencies frequencies config).unheard = .ok codec) ↔
      Tree.IsCodable frequencies config := by
  unfold ofFrequencies
  rw [← Tables.exists_build_iff, Logged.unheard_bind fun _ ↦ .pure _]
  constructor
  · rintro ⟨codec, h⟩
    obtain ⟨tables, htables, _⟩ := Outcome.bind_eq_ok_iff.mp h
    exact ⟨tables, htables⟩
  · rintro ⟨tables, htables⟩
    exact ⟨_, Outcome.bind_eq_ok_iff.mpr ⟨tables, htables, rfl⟩⟩

/-- Which codecs learn, and what is wrong with the others. -/
theorem counts_eq (codec : Codec S) : codec.counts =
    if codec.isTrainable = false then .error (.unsupported (.trainingStatic (Symbol.typeName S)))
    else if codec.isBuilt = true then .error .alreadyBuilt
    else .ok codec.frequencies := by
  obtain ⟨config, isTrainable, stage⟩ := codec
  cases isTrainable with
  | false => rfl
  | true =>
    cases stage with
    | training frequencies => rfl
    | built tables => rfl

/-- A codec that still learns. -/
theorem counts_eq_ok_iff {codec : Codec S} {frequencies : Frequencies S} :
    codec.counts = .ok frequencies ↔
      codec.isTrainable = true ∧ codec.stage = .training frequencies := by
  obtain ⟨config, isTrainable, stage⟩ := codec
  cases isTrainable with
  | false => simp [counts]
  | true => cases stage <;> simp [counts]

theorem isBuilt_eq_false_of_counts {codec : Codec S} {frequencies : Frequencies S}
    (h : codec.counts = .ok frequencies) : codec.isBuilt = false := by
  rw [isBuilt, (counts_eq_ok_iff.mp h).2]
  rfl

theorem exists_counts_eq_error {codec : Codec S} (h : codec.isBuilt = true) :
    ∃ error, codec.counts = .error error := by
  rw [counts_eq, if_pos h]
  split_ifs
  · exact ⟨_, rfl⟩
  · exact ⟨_, rfl⟩

/-- Counts change if the codec learns. -/
theorem run_count (change : Frequencies S → Frequencies S) (codec : Codec S) (log : WarningLog) :
    (count change).run ⟨codec, log⟩ = match codec.counts with
      | .ok frequencies => .ok () ⟨{ codec with stage := .training (change frequencies) }, log⟩
      | .error error => .error error ⟨codec, log⟩ := by
  show (Update.ofExcept codec.counts >>= fun frequencies ↦
    Update.replace { codec with stage := .training (change frequencies) }).run ⟨codec, log⟩ = _
  cases codec.counts with
  | ok frequencies => rfl
  | error error => rfl

/-- Rare symbols are forgotten if the codec learns. -/
theorem run_keepAtLeast (cutoff : Weight) (codec : Codec S) (log : WarningLog) :
    (keepAtLeast cutoff).run ⟨codec, log⟩ = match codec.counts with
      | .ok frequencies => .ok (frequencies.size - (frequencies.keepAtLeast cutoff).size)
          ⟨{ codec with stage := .training (frequencies.keepAtLeast cutoff) }, log⟩
      | .error error => .error error ⟨codec, log⟩ := by
  have hcount := run_count (·.keepAtLeast cutoff) codec log
  show (Update.ofExcept codec.counts >>= fun before ↦ count (·.keepAtLeast cutoff) >>= fun _ ↦
    pure (before.size - (before.keepAtLeast cutoff).size)).run ⟨codec, log⟩ = _
  cases hcounts : codec.counts with
  | ok frequencies =>
    rw [hcounts] at hcount
    show ((count (·.keepAtLeast cutoff)) >>= fun _ ↦ pure _).run ⟨codec, log⟩ = _
    rw [EStateM.run_bind, hcount]
    rfl
  | error error => rfl

/-- What counting leaves behind: a codec that learns with changed counts, or the codec as it was. -/
theorem run_count_cases (change : Frequencies S → Frequencies S) (codec : Codec S)
    (log : WarningLog) :
    (∃ frequencies, codec = ⟨codec.config, true, .training frequencies⟩ ∧
      (count change).run ⟨codec, log⟩ =
        .ok () ⟨⟨codec.config, true, .training (change frequencies)⟩, log⟩) ∨
    ∃ error, (count change).run ⟨codec, log⟩ = .error error ⟨codec, log⟩ := by
  obtain ⟨config, isTrainable, stage⟩ := codec
  cases isTrainable with
  | false => exact Or.inr ⟨_, rfl⟩
  | true =>
    cases stage with
    | training frequencies => exact Or.inl ⟨frequencies, rfl, rfl⟩
    | built tables => exact Or.inr ⟨_, rfl⟩

/-- A codec that counts has the tables of its counts when it is built. -/
theorem run_build_training (config : TableConfig) (isTrainable : Bool)
    (frequencies : Frequencies S) (log : WarningLog) :
    build.run ⟨⟨config, isTrainable, .training frequencies⟩, log⟩ =
      match (Tables.build frequencies config).run log with
      | .ok tables left => .ok () ⟨⟨config, isTrainable, .built tables⟩, left⟩
      | .error error left =>
        .error error ⟨⟨config, isTrainable, .training frequencies⟩, left⟩ := by
  show (Update.hearing (Tables.build frequencies config) >>= fun tables ↦
    Update.replace (⟨config, isTrainable, .built tables⟩ : Codec S)).run _ = _
  rw [EStateM.run_bind]
  cases hrun : (Tables.build frequencies config).run log with
  | ok tables left =>
    rw [Update.run_hearing_ok hrun]
    rfl
  | error error left => rw [Update.run_hearing_error hrun]

/-- What building leaves behind: the tables of the counts if they have any, and otherwise the codec
as it was. -/
theorem run_build_cases (codec : Codec S) (log : WarningLog) :
    (∃ tables left, build.run ⟨codec, log⟩ = .ok () ⟨{ codec with stage := .built tables }, left⟩ ∧
      codec.stage = .training codec.frequencies ∧
      (Tables.build codec.frequencies codec.config).unheard = .ok tables) ∨
    ∃ error left, build.run ⟨codec, log⟩ = .error error ⟨codec, left⟩ := by
  obtain ⟨config, isTrainable, stage⟩ := codec
  cases stage with
  | built tables => exact Or.inr ⟨.alreadyBuilt, log, rfl⟩
  | training frequencies =>
    have hadds := Tables.onlyAdds_build frequencies config
    rw [run_build_training]
    cases hrun : (Tables.build frequencies config).run log with
    | ok tables left => exact Or.inl ⟨tables, left, rfl, rfl, hadds.unheard_eq_ok hrun⟩
    | error error left => exact Or.inr ⟨error, left, rfl⟩

/-- Building succeeds if the codec has no tables yet and its counts have some. -/
theorem exists_run_build_iff {codec later : Codec S} (log : WarningLog) :
    (∃ left, build.run ⟨codec, log⟩ = .ok () ⟨later, left⟩) ↔
      codec.isBuilt = false ∧ ∃ tables, later = { codec with stage := .built tables } ∧
        (Tables.build codec.frequencies codec.config).unheard = .ok tables := by
  obtain ⟨config, isTrainable, stage⟩ := codec
  cases stage with
  | built tables =>
    refine iff_of_false ?_ fun h ↦ (by cases h.1)
    rintro ⟨left, hrun⟩
    cases hrun
  | training frequencies =>
    have hadds := Tables.onlyAdds_build frequencies config
    refine Iff.trans ?_ (and_iff_right rfl).symm
    constructor
    · rintro ⟨left, hrun⟩
      rcases run_build_cases ⟨config, isTrainable, .training frequencies⟩ log with
        ⟨tables, other, hbuild, _, htables⟩ | ⟨error, other, hbuild⟩
      · rw [hbuild] at hrun
        cases hrun
        exact ⟨tables, rfl, htables⟩
      · rw [hbuild] at hrun
        cases hrun
    · rintro ⟨tables, rfl, htables⟩
      obtain ⟨left, hrun⟩ := (hadds.exists_run_eq_ok_iff log).mpr htables
      refine ⟨left, ?_⟩
      rw [run_build_training, hrun]

/-- The codec has no tables yet, and its counts have some. -/
structure CanBuild (codec : Codec S) : Prop where
  isBuilt_eq : codec.isBuilt = false
  isCodable : Tree.IsCodable codec.frequencies codec.config

/-- A codec that can be built has tables then. One that cannot stays as it is. -/
theorem run_build_cases_of_canBuild (codec : Codec S) (log : WarningLog) :
    (codec.CanBuild ∧ ∃ tables left,
      build.run ⟨codec, log⟩ = .ok () ⟨{ codec with stage := .built tables }, left⟩) ∨
    (¬ codec.CanBuild ∧ ∃ error left, build.run ⟨codec, log⟩ = .error error ⟨codec, left⟩) := by
  rcases codec.run_build_cases log with ⟨tables, left, hrun, _⟩ | ⟨error, left, hrun⟩
  · obtain ⟨hbuilt, _, _, htables⟩ := (exists_run_build_iff log).mp ⟨left, hrun⟩
    exact Or.inl ⟨⟨hbuilt, (Tables.exists_build_iff _ _).mp ⟨_, htables⟩⟩, tables, left, hrun⟩
  · refine Or.inr ⟨fun hcan ↦ ?_, error, left, hrun⟩
    obtain ⟨tables, htables⟩ := (Tables.exists_build_iff _ _).mpr hcan.isCodable
    obtain ⟨_, hbuild⟩ := (exists_run_build_iff log).mpr ⟨hcan.isBuilt_eq, tables, rfl, htables⟩
    rw [hrun] at hbuild
    cases hbuild

section Built

variable {codec : Codec S} {tables : Tables S}

theorem tables_eq (h : codec.stage = .built tables) : codec.tables = .ok tables := by
  unfold Codec.tables
  rw [h]

/-- A built codec encodes with its codebook. -/
theorem encode_eq (h : codec.stage = .built tables) (write : LiteralWriter S) (symbols : List S) :
    codec.encode write symbols = tables.book.encode write symbols := by
  unfold encode
  rw [tables_eq h]
  rfl

/-- A built codec decodes with its decoder. -/
theorem decode_eq (h : codec.stage = .built tables) (read : Reading S) (stream : PackedStream) :
    codec.decode read stream = stream.decodeItems (tables.decoder.readSymbol read) := by
  unfold decode
  rw [tables_eq h]
  rfl

end Built

/-- A codec with its own tables, seen through the parts that encode and decode. -/
theorem HasOwnTables.exists_isDerived {codec : Codec S} (h : codec.HasOwnTables) :
    ∃ tables, codec.stage = .built tables ∧
      tables.IsDerived codec.frequencies codec.config := by
  obtain ⟨tables, hstage, htables⟩ := h
  exact ⟨tables, hstage, Tables.build_eq_ok_iff.mp htables⟩

theorem exists_stage_iff {codec : Codec S} {tables : Tables S} (h : codec.stage = .built tables)
    {property : Tables S → Prop} :
    (∃ others, codec.stage = .built others ∧ property others) ↔ property tables := by
  constructor
  · rintro ⟨others, hothers, hproperty⟩
    rw [h] at hothers
    cases hothers
    exact hproperty
  · intro hproperty
    exact ⟨tables, h, hproperty⟩

/-- Whether a symbol of a built codec has a codeword is up to the codebook. -/
theorem hasCode_iff {codec : Codec S} {tables : Tables S} (h : codec.stage = .built tables)
    {symbol : S} : codec.HasCode symbol ↔ (tables.book.codewordOf? symbol).isSome = true := by
  simp only [HasCode, exists_and_left, Option.isSome_iff_exists]
  exact exists_stage_iff h

/-- Whether a built codec can escape is up to the codebook. -/
theorem hasEscape_iff {codec : Codec S} {tables : Tables S} (h : codec.stage = .built tables) :
    codec.HasEscape ↔ tables.book.escape.isSome = true := by
  simp only [HasEscape, exists_and_left, Option.isSome_iff_exists]
  exact exists_stage_iff h

/-- A codec with its own tables can escape if its configuration says so. -/
theorem HasOwnTables.hasEscape_iff {codec : Codec S} (h : codec.HasOwnTables) :
    codec.HasEscape ↔ codec.config.hasEscape = true := by
  obtain ⟨tables, hstage, hderived⟩ := h.exists_isDerived
  rw [Codec.hasEscape_iff hstage, hderived.isSome_escape_iff]

/-- The symbols with a codeword are those that were counted. -/
theorem HasOwnTables.hasCode_iff {codec : Codec S} (h : codec.HasOwnTables) {symbol : S} :
    codec.HasCode symbol ↔ symbol ∈ codec.frequencies.weights := by
  obtain ⟨tables, hstage, hderived⟩ := h.exists_isDerived
  rw [Codec.hasCode_iff hstage, ← Tree.symbol_mem_alphabet_iff codec.frequencies codec.config,
    ← hderived.mem_tokens_iff, List.mem_map, Option.isSome_iff_exists]
  simp only [hderived.isPrefixCode.codewordOf?_eq_some_iff]
  constructor
  · intro hcode
    obtain ⟨codeword, row, hrow, htoken, _⟩ := hcode
    exact ⟨row, hrow, htoken⟩
  · intro hrow
    obtain ⟨row, hrow, htoken⟩ := hrow
    exact ⟨row.codeword, row, hrow, htoken, rfl⟩

end Codec

end HuffmanCoding
