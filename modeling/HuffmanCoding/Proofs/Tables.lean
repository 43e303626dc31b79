import HuffmanCoding.Codec.Tables
import HuffmanCoding.Proofs.Codebook
import HuffmanCoding.Proofs.Tree.Alphabet

/-!
# The tables of counts

Tables are derived one from the other: the tree from the counts, the codebook from the tree and the
decoder from the codebook (`IsDerived`). Counts have tables as soon as they have a tree
(`exists_build`), because the codewords of a tree can always be told apart in a window as wide as
the longest of them.
-/

set_option autoImplicit false
set_option relaxedAutoImplicit false

namespace HuffmanCoding

variable {S : Type} [Symbol S]

/-! ### Decoders -/

namespace WindowDecoder

theorem onlyAdds_ofCodebook (book : Codebook S) (config : TableConfig) :
    (ofCodebook book config).OnlyAdds :=
  .bind (.warnIf _ _) fun _ ↦ .bind (.ofExcept _) fun _ ↦ .pure _

/-- A decoder consists of the tokens and a table for their codewords. -/
theorem ofCodebook_eq_ok_iff {book : Codebook S} {config : TableConfig}
    {decoder : WindowDecoder S} : (ofCodebook book config).unheard = .ok decoder ↔
      ∃ table, WindowTable.build (book.rows.map (·.codeword)) book.longest = .ok table ∧
        decoder = ⟨(book.rows.map (·.token)).toArray, table⟩ := by
  unfold ofCodebook
  rw [Logged.unheard_warnIf_bind _ _ (.bind (.ofExcept _) fun _ ↦ .pure _),
    Logged.unheard_bind fun _ ↦ .pure _, Logged.unheard_ofExcept, Outcome.bind_eq_ok_iff]
  refine exists_congr fun table ↦ and_congr_right fun _ ↦ ?_
  rw [Logged.unheard_pure, Except.ok.injEq]
  exact eq_comm

end WindowDecoder

namespace Tables

/-! ### Derived tables -/

/-- The tables of counts: a tree within the bound, the codebook of the tree, and a decoder for this
codebook. -/
structure IsDerived (tables : Tables S) (frequencies : Frequencies S) (config : TableConfig) :
    Prop where
  frequencies_eq : tables.frequencies = frequencies
  tree_eq : (Tree.build frequencies config).unheard = .ok tables.tree
  book_eq : tables.book = Codebook.ofTree tables.tree
  tokens_eq : tables.decoder.tokens = (tables.book.rows.map (·.token)).toArray
  table_eq : WindowTable.build (tables.book.rows.map (·.codeword)) tables.book.longest =
    .ok tables.decoder.table

/-- The tables that are derived from counts and their tree. -/
def ofTree (frequencies : Frequencies S) (config : TableConfig) (tree : Tree S) :
    Logged (Tables S) := do
  let decoder ← WindowDecoder.ofCodebook (Codebook.ofTree tree) config
  return ⟨frequencies, tree, Codebook.ofTree tree, decoder⟩

theorem onlyAdds_ofTree (frequencies : Frequencies S) (config : TableConfig) (tree : Tree S) :
    (ofTree frequencies config tree).OnlyAdds :=
  .bind (WindowDecoder.onlyAdds_ofCodebook _ _) fun _ ↦ .pure _

theorem onlyAdds_build (frequencies : Frequencies S) (config : TableConfig) :
    (build frequencies config).OnlyAdds :=
  .bind (Tree.onlyAdds_build _ _) (onlyAdds_ofTree frequencies config)

theorem unheard_build (frequencies : Frequencies S) (config : TableConfig) :
    (build frequencies config).unheard = (Tree.build frequencies config).unheard >>= fun tree ↦
      (ofTree frequencies config tree).unheard :=
  Logged.unheard_bind (onlyAdds_ofTree frequencies config)

/-- Building yields derived tables and nothing else. -/
theorem build_eq_ok_iff {frequencies : Frequencies S} {config : TableConfig} {tables : Tables S} :
    (build frequencies config).unheard = .ok tables ↔ tables.IsDerived frequencies config := by
  rw [unheard_build, Outcome.bind_eq_ok_iff]
  constructor
  · rintro ⟨tree, htree, hrest⟩
    rw [ofTree, Logged.unheard_bind fun _ ↦ .pure _, Outcome.bind_eq_ok_iff] at hrest
    obtain ⟨decoder, hdecoder, hpure⟩ := hrest
    obtain ⟨table, htable, rfl⟩ := WindowDecoder.ofCodebook_eq_ok_iff.mp hdecoder
    cases hpure
    exact ⟨rfl, htree, rfl, rfl, htable⟩
  · intro h
    obtain ⟨counted, tree, book, decoder, table⟩ := tables
    obtain ⟨hfrequencies, htree, hbook, htokens, htable⟩ := h
    simp only at hfrequencies htree hbook htokens htable
    subst hfrequencies hbook htokens
    refine ⟨tree, htree, ?_⟩
    rw [ofTree, Logged.unheard_bind fun _ ↦ .pure _, Outcome.bind_eq_ok_iff]
    exact ⟨_, WindowDecoder.ofCodebook_eq_ok_iff.mpr ⟨_, htable, rfl⟩, rfl⟩

/-! ### Tables of codable counts -/

section IsDerived

variable {frequencies : Frequencies S} {config : TableConfig} {tables : Tables S}

theorem IsDerived.isCodable (h : tables.IsDerived frequencies config) :
    Tree.IsCodable frequencies config :=
  Tree.isCodable_of_build h.tree_eq

/-- The codebook of a tree that was built is a prefix code. -/
theorem isPrefixCode_of_build {tree : Tree S}
    (h : (Tree.build frequencies config).unheard = .ok tree) :
    (Codebook.ofTree tree).IsPrefixCode :=
  Codebook.isPrefixCode_ofTree (Tree.longest_le_of_build h) (Tree.nodup_tokens_of_build h)

/-- The codebook of derived tables is a prefix code. -/
theorem IsDerived.isPrefixCode (h : tables.IsDerived frequencies config) :
    tables.book.IsPrefixCode := by
  rw [h.book_eq]
  exact isPrefixCode_of_build h.tree_eq

/-- The codebook has a row for each token of the alphabet. -/
theorem IsDerived.size_eq (h : tables.IsDerived frequencies config) :
    tables.book.size = tokenCount frequencies config := by
  rw [h.book_eq, Codebook.size_ofTree, Tree.leafCount_of_build h.tree_eq]

theorem IsDerived.mem_tokens_iff (h : tables.IsDerived frequencies config) {token : Token S} :
    token ∈ tables.book.rows.map (·.token) ↔
      token ∈ (alphabet frequencies config).map (·.token) := by
  rw [h.book_eq, (Codebook.tokens_ofTree_perm tables.tree).mem_iff,
    ((Tree.isTreeWithin_of_build h.tree_eq).contents_perm.map (·.token)).mem_iff]

/-- Codable counts have tables. -/
theorem exists_build (h : Tree.IsCodable frequencies config) :
    ∃ tables, (build frequencies config).unheard = .ok tables := by
  obtain ⟨tree, htree, _⟩ := h.exists_build
  have hbook := isPrefixCode_of_build htree
  obtain ⟨table, htable⟩ := WindowTable.exists_build (Codebook.ofTree tree).longest
    (by
      intro codeword hcodeword
      obtain ⟨row, hrow, rfl⟩ := List.mem_map.mp hcodeword
      exact hbook.fits row hrow)
    hbook.part
  refine ⟨⟨frequencies, tree, Codebook.ofTree tree,
    ((Codebook.ofTree tree).rows.map (·.token)).toArray, table⟩, ?_⟩
  exact build_eq_ok_iff.mpr ⟨rfl, htree, rfl, rfl, htable⟩

/-- Counts have tables if and only if they are codable. -/
theorem exists_build_iff (frequencies : Frequencies S) (config : TableConfig) :
    (∃ tables, (build frequencies config).unheard = .ok tables) ↔
      Tree.IsCodable frequencies config := by
  constructor
  · rintro ⟨tables, htables⟩
    exact (build_eq_ok_iff.mp htables).isCodable
  · exact exists_build

/-- Counts without tables are refused for one of the reasons for which they have no tree. -/
theorem refused_of_build {error : Error} (h : (build frequencies config).unheard = .error error) :
    Tree.Refused frequencies config error := by
  have hnot : ¬ Tree.IsCodable frequencies config := by
    intro hcodable
    obtain ⟨tables, htables⟩ := exists_build hcodable
    rw [htables] at h
    cases h
  rw [unheard_build, Outcome.bind_eq_error_iff] at h
  rcases h with htree | ⟨tree, htree, _⟩
  · exact Tree.refused_of_build htree
  · exact absurd (Tree.isCodable_of_build htree) hnot

end IsDerived

/-! ### Full codes within a bound -/

/-- The codewords of tables are a full prefix code within a bound, the parts of the tables agree on
the length of the longest of them, and nothing was out of range on the way there. -/
structure IsFullWithin (tables : Tables S) (frequencies : Frequencies S) (config : TableConfig)
    (bound : ℕ) : Prop where
  size_eq : tables.book.size = tokenCount frequencies config
  length_bounds : ∀ row ∈ tables.book.rows,
    1 ≤ row.codeword.length.toNat ∧ row.codeword.length.toNat ≤ bound
  part : (tables.book.rows.map (·.codeword)).Pairwise fun first second ↦
    Bits.Part first.path second.path
  kraftSum_eq : 2 ≤ tokenCount frequencies config →
    kraftSum (tables.book.rows.map (·.codeword.length.toNat)) = 1
  limited : ∃ merged, Tree.ofLeaves? (alphabet frequencies config) = some merged ∧
    (bound < merged.depth → tables.book.longest.toNat = bound ∧
      ∃ counts, merged.LimitsTo bound tables.tree counts)
  tree_longest : tables.tree.longest = tables.book.longest.toNat
  window_width : tables.decoder.table.width = tables.book.longest
  fits : ∀ row ∈ tables.book.rows, WindowTable.Fits tables.book.longest.toNat row.codeword
  table_eq : WindowTable.build (tables.book.rows.map (·.codeword)) tables.book.longest =
    .ok tables.decoder.table

/-- The lengths in the codebook of a tree with several leaves are the depths of the leaves. -/
theorem lengths_ofTree_perm {tree : Tree S} (hlongest : tree.longest ≤ 32)
    (hinner : tree.isLeaf = false) :
    ((Codebook.ofTree tree).rows.map (·.codeword.length.toNat)).Perm tree.depths := by
  have hperm := (Codebook.rows_ofTree_perm tree).map (·.codeword.length.toNat)
  have hlengths : (tree.ways.map CodeRow.ofWay).map (·.codeword.length.toNat) = tree.depths := by
    rw [Tree.depths_eq_paths, ← Tree.ways_eq_paths hinner, List.map_map]
    exact List.map_congr_left fun way hway ↦ Codebook.length_ofWay hlongest hway
  rwa [hlengths] at hperm

theorem IsDerived.isFullWithin {frequencies : Frequencies S} {config : TableConfig}
    {tables : Tables S} (h : tables.IsDerived frequencies config) :
    tables.IsFullWithin frequencies config (effectiveBound frequencies config) := by
  have hwithin := Tree.isTreeWithin_of_build h.tree_eq
  have hroom := Tree.longest_le_of_build h.tree_eq
  have hbook := h.isPrefixCode
  have hlongest : tables.book.longest.toNat = tables.tree.longest := by
    rw [h.book_eq]
    exact Codebook.toNat_longest_ofTree hroom
  refine ⟨h.size_eq, ?_, hbook.part, ?_, ?_, hlongest.symm, ?_, hbook.fits, h.table_eq⟩
  · intro row hrow
    obtain ⟨hpos, hle, _⟩ := hbook.fits row hrow
    exact ⟨hpos, hle.trans (hlongest.le.trans (Tree.longest_le_effectiveBound h.tree_eq))⟩
  · intro htwo
    have hinner : tables.tree.isLeaf = false := by
      rw [Bool.eq_false_iff]
      intro hleaf
      have hone := Tree.leafCount_eq_one_iff.mpr hleaf
      rw [Tree.leafCount_of_build h.tree_eq] at hone
      exact absurd hone (Nat.ne_of_gt htwo)
    rw [h.book_eq, kraftSum_perm (lengths_ofTree_perm hroom hinner), Tree.kraftSum_depths]
  · obtain ⟨merged, hmerged, hcases⟩ := hwithin.merged_or_limited
    refine ⟨merged, hmerged, fun hdeep ↦ ?_⟩
    rcases hcases with ⟨_, hle⟩ | ⟨_, counts, hlimits⟩
    · exact absurd hle (Nat.not_le_of_lt hdeep)
    · refine ⟨?_, counts, hlimits⟩
      have hone := h.isCodable.one_le_effectiveBound
      rw [hlongest, Tree.longest, hlimits.depth_eq, Nat.max_eq_right hone]
  · exact (WindowTable.holds_of_build h.table_eq).1

/-- Building succeeds exactly on a configuration that is in order, for counts of which there are any
and whose tokens do not outnumber the codewords of 24 bits; no other error can occur. It yields a
full prefix code within the configured bound, or within the least sufficient length if that is
greater. -/
theorem build_isFullWithin (frequencies : Frequencies S) (config : TableConfig) :
    ((∃ tables, (build frequencies config).unheard = .ok tables) ↔
      config.check = .ok () ∧ 0 < frequencies.total.toNat ∧
        tokenCount frequencies config ≤ 2 ^ 24) ∧
    (∀ error, (build frequencies config).unheard = .error error →
      Tree.Refused frequencies config error) ∧
    ∀ tables, (build frequencies config).unheard = .ok tables →
      ∃ needed, IsLeast (SufficientLengths (tokenCount frequencies config)) needed ∧
        tables.IsFullWithin frequencies config (max config.lengthBound.toNat needed) := by
  refine ⟨(exists_build_iff frequencies config).trans Tree.isCodable_iff,
    fun error ↦ refused_of_build, fun tables htables ↦ ?_⟩
  have hderived := build_eq_ok_iff.mp htables
  exact ⟨_, isLeast_sufficientLength hderived.isCodable.tokenCount_le, hderived.isFullWithin⟩

/-- Two bits for each of four letters keep to a bound of two bits, though merging yields a codeword
of three. -/
theorem build_isFullWithin_of_four_letters :
    let frequencies := (((Frequencies.empty.add 'a' 1).add 'b' 1).add 'c' 2).add 'd' 4
    ∃ tables, (build frequencies ⟨2, 2, false, 0⟩).unheard = .ok tables ∧
      tables.IsFullWithin frequencies ⟨2, 2, false, 0⟩ 2 ∧ tables.book.longest.toNat = 2 := by
  intro frequencies
  obtain ⟨hiff, _, hfull⟩ := build_isFullWithin frequencies ⟨2, 2, false, 0⟩
  obtain ⟨tables, htables⟩ := hiff.mpr ⟨by decide, by decide +kernel, by decide +kernel⟩
  obtain ⟨needed, hleast, htwo⟩ := hfull tables htables
  have hneeded : needed ≤ 2 := hleast.2 ⟨by decide, by decide +kernel⟩
  have hbound : max (2 : UInt8).toNat needed = 2 := Nat.max_eq_left hneeded
  rw [hbound] at htwo
  obtain ⟨merged, hmerged, hlimited⟩ := htwo.limited
  have hdepth : (Tree.ofLeaves? (alphabet frequencies ⟨2, 2, false, 0⟩)).map Tree.depth =
      some 3 := by
    rw [Tree.ofLeaves?, Tree.Frontier.ofLeaves_of_pairwise (by decide +kernel)]
    decide +kernel
  rw [hmerged, Option.map_some, Option.some.injEq] at hdepth
  rw [hdepth] at hlimited
  exact ⟨tables, htables, htwo, (hlimited (by decide)).1⟩

end Tables

end HuffmanCoding
