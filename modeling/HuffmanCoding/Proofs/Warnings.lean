import HuffmanCoding.Proofs.Tables

/-!
# No silent fallback

Deriving tables falls back in four ways: the bound on the lengths of codewords gives way to the
alphabet, a lone token gets a codeword of one bit, a tree that is too deep is rebuilt within the
bound, and the decoding window is wider than the preferred one. Each of them is reported if it is
taken, with the numbers that show it, and nothing else is (`Tables.build_reportsFallbacks`). So
where nothing was reported, the configuration was kept to the letter.

The reports are followed through the computation: one after the other, two computations report what
they report each (`Logged.Reports.bind`).
-/

set_option autoImplicit false
set_option relaxedAutoImplicit false

namespace HuffmanCoding

/-! ### What is reported -/

/-- The warning, if there is reason for it. -/
def Warning.onlyIf (warning : Warning) (reason : Prop) [Decidable reason] : WarningLog :=
  if reason then [warning] else []

theorem Warning.onlyIf_pos {warning : Warning} {reason : Prop} [Decidable reason] (h : reason) :
    warning.onlyIf reason = [warning] :=
  if_pos h

theorem Warning.onlyIf_neg {warning : Warning} {reason : Prop} [Decidable reason] (h : ¬ reason) :
    warning.onlyIf reason = [] :=
  if_neg h

theorem Warning.onlyIf_eq_nil_iff {warning : Warning} {reason : Prop} [Decidable reason] :
    warning.onlyIf reason = [] ↔ ¬ reason := by
  unfold onlyIf
  split_ifs with h
  · simp [h]
  · simp [h]

namespace Logged

variable {α β : Type}

/-- The computation yields a value and reports these warnings, whatever was reported before. -/
def Reports (computation : Logged α) (value : α) (warnings : WarningLog) : Prop :=
  ∀ log, computation.run log = .ok value (log ++ warnings)

theorem reports_pure (value : α) : Reports (pure value) value [] := by
  intro log
  rw [EStateM.run_pure, List.append_nil]

theorem reports_warn (warning : Warning) : (warn warning).Reports () [warning] :=
  fun _ ↦ rfl

theorem reports_warnIf (reason : Prop) [Decidable reason] (warning : Warning) :
    (warnIf reason warning).Reports () (warning.onlyIf reason) := by
  by_cases h : reason
  · rw [warnIf, if_pos (decide_eq_true h), Warning.onlyIf_pos h]
    exact reports_warn warning
  · rw [warnIf, if_neg (mt of_decide_eq_true h), Warning.onlyIf_neg h]
    exact reports_pure ()

theorem reports_ofExcept {result : Except Error α} {value : α} (h : result = .ok value) :
    (ofExcept result).Reports value [] := by
  rw [h]
  exact reports_pure value

/-- Two computations report what they report one after the other. -/
theorem Reports.bind {computation : Logged α} {next : α → Logged β} {value : α} {result : β}
    {warnings more : WarningLog} (h : computation.Reports value warnings)
    (hnext : (next value).Reports result more) :
    (computation >>= next).Reports result (warnings ++ more) := by
  intro log
  rw [EStateM.run_bind, h log, ← List.append_assoc]
  exact hnext (log ++ warnings)

/-- What is made of a value without a report changes nothing about the reports. -/
theorem Reports.bind_pure {computation : Logged α} {value : α} {warnings : WarningLog}
    (h : computation.Reports value warnings) (next : α → β) :
    (computation >>= fun value ↦ pure (next value)).Reports (next value) warnings := by
  rw [← List.append_nil warnings]
  exact h.bind (reports_pure (next value))

end Logged

namespace Tree

variable {S : Type} [Symbol S]

/-! ### Trees -/

/-- A tree that is deeper than the bound gives way to one that reaches the bound. -/
theorem reports_within {bound : ℕ} {contents : List (Leaf S)} {tree merged : Tree S}
    (hmerged : ofLeaves? contents = some merged)
    (htree : tree = merged ∧ merged.depth ≤ bound ∨
      bound < merged.depth ∧ ∃ counts, merged.LimitsTo bound tree counts) :
    (within bound contents).Reports tree
      ((Warning.depthLimited merged.depth bound bound).onlyIf (bound < merged.depth)) := by
  simp only [within, hmerged]
  rcases htree with ⟨rfl, hle⟩ | ⟨hlt, counts, hlimits⟩
  · rw [if_pos hle, Warning.onlyIf_neg (Nat.not_lt_of_le hle)]
    exact Logged.reports_pure tree
  · rw [if_neg (Nat.not_le_of_lt hlt), Warning.onlyIf_pos hlt]
    have hwarn := Logged.reports_warn (.depthLimited merged.depth bound tree.depth)
    rw [hlimits.depth_eq] at hwarn
    refine (Logged.reports_ofExcept hlimits.limitDepth_eq).bind ?_
    rw [hlimits.depth_eq]
    exact hwarn.bind (Logged.reports_pure tree)

/-- The warnings that a tree of some tokens calls for, where they need codewords of that length and
`merged` is their tree of least weighted depth. -/
def treeWarnings (bound tokens needed : ℕ) (merged : Tree S) : WarningLog :=
  (Warning.boundWidened tokens needed bound).onlyIf (bound < needed) ++
    Warning.loneToken.onlyIf (tokens = 1) ++
    (Warning.depthLimited merged.depth (max bound needed) (max bound needed)).onlyIf
      (2 ≤ tokens ∧ max bound needed < merged.depth)

/-- A bound that gives way to the tokens is reported before anything else. -/
theorem reports_widened {bound : ℕ} {contents : List (Leaf S)} {tree merged : Tree S}
    (hne : contents ≠ [])
    (hwithin : tree.IsTreeWithin (max bound (sufficientLength contents.length)) contents)
    (hmerged : ofLeaves? contents = some merged) :
    (widened bound contents).Reports tree
      (treeWarnings bound contents.length (sufficientLength contents.length) merged) := by
  obtain ⟨other, hother, htree⟩ := hwithin.merged_or_limited
  rw [hmerged, Option.some.injEq] at hother
  subst hother
  rw [treeWarnings, List.append_assoc]
  refine (Logged.reports_warnIf _ _).bind ?_
  match contents with
  | [] => exact absurd rfl hne
  | [content] =>
    rw [ofLeaves?_singleton, Option.some.injEq] at hmerged
    subst hmerged
    obtain ⟨rfl, _⟩ := htree.resolve_right fun hlimited ↦ Nat.not_lt_zero _ hlimited.1
    have hone : [content].length = 1 := rfl
    have htwo : ¬ 2 ≤ [content].length := by simp
    rw [Warning.onlyIf_pos hone, Warning.onlyIf_neg fun h ↦ htwo h.1]
    exact (Logged.reports_warn _).bind (Logged.reports_pure _)
  | first :: second :: others =>
    have htwo : 2 ≤ (first :: second :: others).length := by simp
    have hdeep : (2 ≤ (first :: second :: others).length ∧
        max bound (sufficientLength (first :: second :: others).length) < merged.depth) ↔
        max bound (sufficientLength (first :: second :: others).length) < merged.depth :=
      and_iff_right htwo
    rw [Warning.onlyIf_neg (by omega), List.nil_append]
    simp only [Warning.onlyIf, hdeep]
    exact reports_within hmerged htree

variable {frequencies : Frequencies S} {config : TableConfig} {tree merged : Tree S}

/-- The tree of counts reports what its tokens call for. -/
theorem reports_build (h : (build frequencies config).unheard = .ok tree)
    (hmerged : ofLeaves? (alphabet frequencies config) = some merged) :
    (build frequencies config).Reports tree (treeWarnings config.lengthBound.toNat
      (tokenCount frequencies config) (sufficientLength (tokenCount frequencies config))
      merged) := by
  have hcodable := isCodable_of_build h
  have hwithin := isTreeWithin_of_build h
  rw [effectiveBound, ← length_alphabet] at hwithin
  rw [← length_alphabet]
  refine (Logged.reports_ofExcept hcodable.check_eq).bind ?_
  rw [if_neg hcodable.total_ne_zero]
  dsimp only
  rw [if_neg (Nat.not_lt_of_le hcodable.length_le)]
  exact reports_widened (alphabet_ne_nil hcodable.total_ne_zero config) hwithin hmerged

end Tree

namespace Tables

variable {S : Type} [Symbol S] {frequencies : Frequencies S} {config : TableConfig}
  {tables : Tables S}

/-! ### Tables -/

def warnings (tables : Tables S) (frequencies : Frequencies S) (config : TableConfig) (needed : ℕ)
    (merged : Tree S) : WarningLog :=
  Tree.treeWarnings config.lengthBound.toNat (tokenCount frequencies config) needed merged ++
    (Warning.windowWidened tables.book.longest.toNat config.windowWidth.toNat).onlyIf
      (config.windowWidth < tables.book.longest)

/-- A decoder reports a window that is wider than the preferred one. -/
theorem reports_ofCodebook {book : Codebook S} {config : TableConfig} {table : WindowTable}
    (h : WindowTable.build (book.rows.map (·.codeword)) book.longest = .ok table) :
    (WindowDecoder.ofCodebook book config).Reports
      ⟨(book.rows.map (·.token)).toArray, table⟩
      ((Warning.windowWidened book.longest.toNat config.windowWidth.toNat).onlyIf
        (config.windowWidth < book.longest)) := by
  rw [← List.append_nil (Warning.onlyIf _ _)]
  refine (Logged.reports_warnIf _ _).bind ?_
  exact (Logged.reports_ofExcept h).bind_pure fun table ↦
    (⟨(book.rows.map (·.token)).toArray, table⟩ : WindowDecoder S)

/-- The tables of counts report what they call for. -/
theorem IsDerived.reports (h : tables.IsDerived frequencies config) {merged : Tree S}
    (hmerged : Tree.ofLeaves? (alphabet frequencies config) = some merged) :
    (build frequencies config).Reports tables (tables.warnings frequencies config
      (sufficientLength (tokenCount frequencies config)) merged) := by
  obtain ⟨counted, tree, book, decoder, table⟩ := tables
  obtain ⟨hfrequencies, htree, hbook, htokens, htable⟩ := h
  simp only at hfrequencies htree hbook htokens htable
  subst hfrequencies hbook htokens
  refine (Tree.reports_build htree hmerged).bind ?_
  exact (reports_ofCodebook htable).bind_pure (Tables.mk counted tree (Codebook.ofTree tree))

/-! ### No silent fallback -/

/-- Building these tables reports the fallbacks that were taken and nothing else. The tokens need
codewords of `needed` bits, and `merged` is their tree if nothing bounds the lengths. -/
structure ReportsFallbacks (tables : Tables S) (frequencies : Frequencies S) (config : TableConfig)
    (needed : ℕ) (merged : Tree S) : Prop where
  needed_isLeast : IsLeast (SufficientLengths (tokenCount frequencies config)) needed
  merged_eq : Tree.ofLeaves? (alphabet frequencies config) = some merged
  merges : Tree.Merges
    ((alphabet frequencies config).zipIdx.map fun entry ↦ .leaf entry.2 entry.1) merged
  longest_isGreatest : IsGreatest
    {length | ∃ row ∈ tables.book.rows, row.codeword.length.toNat = length}
    tables.book.longest.toNat
  reports : (build frequencies config).Reports tables
    (tables.warnings frequencies config needed merged)
  kept_of_silent : (build frequencies config).listen = (.ok tables, []) →
    tables.tree = merged ∧
      (∀ row ∈ tables.book.rows, row.codeword.length.toNat ≤ config.lengthBound.toNat) ∧
      tables.decoder.table.width.toNat ≤ config.windowWidth.toNat

theorem IsDerived.tokenCount_pos (h : tables.IsDerived frequencies config) :
    0 < tokenCount frequencies config := by
  rw [← Tree.length_alphabet]
  exact List.length_pos_of_ne_nil (Tree.alphabet_ne_nil h.isCodable.total_ne_zero config)

/-- Tables that call for no warning keep to the configuration. -/
theorem IsDerived.kept_of_warnings_eq_nil (h : tables.IsDerived frequencies config)
    {merged : Tree S} (hmerged : Tree.ofLeaves? (alphabet frequencies config) = some merged)
    (hsilent : tables.warnings frequencies config
      (sufficientLength (tokenCount frequencies config)) merged = []) :
    tables.tree = merged ∧
      (∀ row ∈ tables.book.rows, row.codeword.length.toNat ≤ config.lengthBound.toNat) ∧
      tables.decoder.table.width.toNat ≤ config.windowWidth.toNat := by
  simp only [warnings, Tree.treeWarnings, List.append_eq_nil_iff, Warning.onlyIf_eq_nil_iff]
    at hsilent
  obtain ⟨⟨⟨hbound, hlone⟩, hdeep⟩, hwindow⟩ := hsilent
  have hfull := h.isFullWithin
  have hkept : effectiveBound frequencies config = config.lengthBound.toNat :=
    Nat.max_eq_left (Nat.le_of_not_lt hbound)
  have htokens : 2 ≤ tokenCount frequencies config := by
    have hpos := h.tokenCount_pos
    omega
  refine ⟨?_, ?_, ?_⟩
  · obtain ⟨other, hother, htree⟩ := (Tree.isTreeWithin_of_build h.tree_eq).merged_or_limited
    rw [hmerged, Option.some.injEq] at hother
    subst hother
    exact (htree.resolve_right fun hlimited ↦ hdeep ⟨htokens, hlimited.1⟩).1
  · rw [← hkept]
    exact fun row hrow ↦ (hfull.length_bounds row hrow).2
  · rw [hfull.window_width]
    exact UInt8.le_iff_toNat_le.mp (UInt8.not_lt.mp hwindow)

/-- Whenever tables are derived, the fallbacks that were taken are reported, and nothing else is: a
bound that is too small for the tokens, a lone token, a tree of several tokens that would be too
deep, and a longest codeword that is wider than the preferred window. Where nothing is reported, the
tree is the unbounded one, and neither the codewords nor the window are longer than configured. -/
theorem build_reportsFallbacks (h : (build frequencies config).unheard = .ok tables) :
    ∃ needed merged, tables.ReportsFallbacks frequencies config needed merged := by
  have hderived := build_eq_ok_iff.mp h
  obtain ⟨merged, hmerged, hmerges⟩ := Tree.exists_ofLeaves?
    (Tree.alphabet_ne_nil hderived.isCodable.total_ne_zero config)
  have hreports := hderived.reports hmerged
  refine ⟨_, merged, isLeast_sufficientLength hderived.isCodable.tokenCount_le, hmerged,
    hmerges.merges, ?_, hreports, fun hsilent ↦ ?_⟩
  · have hrows : tables.book.rows ≠ [] :=
      List.ne_nil_of_length_pos (hderived.tokenCount_pos.trans_eq hderived.size_eq.symm)
    have hgreatest := Codebook.isGreatest_longest hrows
    rwa [hderived.isPrefixCode.ofSorted_eq] at hgreatest
  · refine hderived.kept_of_warnings_eq_nil hmerged ?_
    rw [Logged.listen, hreports []] at hsilent
    exact congrArg Prod.snd hsilent

/-- Four letters do not get along with one bit, nor with the depth of their tree, nor with a window
of one bit, and all of this is reported. -/
theorem build_reportsFallbacks_of_four_letters :
    let frequencies := (((Frequencies.empty.add 'a' 1).add 'b' 1).add 'c' 2).add 'd' 4
    ∃ tables, (build frequencies ⟨1, 1, false, 0⟩).listen =
      (.ok tables, [.boundWidened 4 2 1, .depthLimited 3 2 2, .windowWidened 2 1]) := by
  intro frequencies
  have hcodable : Tree.IsCodable frequencies ⟨1, 1, false, 0⟩ :=
    Tree.isCodable_iff.mpr ⟨by decide, by decide +kernel, by decide +kernel⟩
  obtain ⟨tables, htables⟩ := exists_build hcodable
  obtain ⟨needed, merged, hfallbacks⟩ := build_reportsFallbacks htables
  have htokens : tokenCount frequencies ⟨1, 1, false, 0⟩ = 4 := by decide +kernel
  have hneeded : needed = 2 := by
    refine hfallbacks.needed_isLeast.unique ?_
    rw [htokens]
    refine ⟨⟨by decide, by decide⟩, fun length ⟨_, henough⟩ ↦ ?_⟩
    exact (Nat.pow_le_pow_iff_right Nat.one_lt_two).mp henough
  have hdepth : merged.depth = 3 := by
    have hmap : (Tree.ofLeaves? (alphabet frequencies ⟨1, 1, false, 0⟩)).map Tree.depth =
        some 3 := by
      rw [Tree.ofLeaves?, Tree.Frontier.ofLeaves_of_pairwise (by decide +kernel)]
      decide +kernel
    rwa [hfallbacks.merged_eq, Option.map_some, Option.some.injEq] at hmap
  have hlongest : tables.book.longest = 2 := by
    have hbound : effectiveBound frequencies ⟨1, 1, false, 0⟩ = 2 := by
      rw [effectiveBound, htokens]
      decide
    obtain ⟨other, hother, hlimited⟩ := (build_eq_ok_iff.mp htables).isFullWithin.limited
    rw [hfallbacks.merged_eq, Option.some.injEq] at hother
    subst hother
    rw [hbound, hdepth] at hlimited
    exact UInt8.toNat_inj.mp (hlimited (by decide)).1
  refine ⟨tables, ?_⟩
  rw [Logged.listen, hfallbacks.reports []]
  simp [warnings, Tree.treeWarnings, Warning.onlyIf, htokens, hneeded, hdepth, hlongest]

end Tables

end HuffmanCoding
