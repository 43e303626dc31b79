import HuffmanCoding.Proofs.Tree.Bounded

/-!
# The tree of an alphabet

An alphabet has a tree exactly if the configuration is in order, something was counted and the
longest codewords suffice for all tokens (`exists_build_iff`), and each failure is one of these
three (`refused_of_build`). The tree keeps to the configured bound, or to the least sufficient
length if that is greater (`isTreeWithin_of_build`), so its codewords have room in 32 digits
(`longest_le_of_build`).
-/

set_option autoImplicit false
set_option relaxedAutoImplicit false

namespace HuffmanCoding

/-- A configuration is in order if each of its fields is in range. -/
theorem TableConfig.check_eq_ok_iff {config : TableConfig} : config.check = .ok () ↔
    (1 ≤ config.lengthBound.toNat ∧ config.lengthBound.toNat ≤ longestLength) ∧
      (1 ≤ config.windowWidth.toNat ∧ config.windowWidth.toNat ≤ longestLength) ∧
      ¬ (config.hasEscape = true ∧ config.escapeWeight = 0) := by
  unfold check
  split_ifs with hbound hwidth hescape
  · refine ⟨fun h ↦ (by cases h), fun h ↦ ?_⟩
    omega
  · refine ⟨fun h ↦ (by cases h), fun h ↦ ?_⟩
    omega
  · exact ⟨fun h ↦ (by cases h), fun h ↦ absurd hescape h.2.2⟩
  · refine ⟨fun _ ↦ ⟨by omega, by omega, hescape⟩, fun _ ↦ rfl⟩

variable {S : Type} [Symbol S]

def tokenCount (frequencies : Frequencies S) (config : TableConfig) : ℕ :=
  frequencies.size + if config.hasEscape then 1 else 0

/-- The bound on the lengths of codewords, which gives way if the tokens need longer ones. -/
def effectiveBound (frequencies : Frequencies S) (config : TableConfig) : ℕ :=
  max config.lengthBound.toNat (sufficientLength (tokenCount frequencies config))

/-- The leaf is that of the escape that the configuration sets aside, or that of a counted symbol,
with the weight of its token. -/
def Leaf.BelongsTo (content : Leaf S) (frequencies : Frequencies S) (config : TableConfig) : Prop :=
  match content.token with
  | .escape => config.hasEscape = true ∧ content.weight = config.escapeWeight
  | .symbol symbol => frequencies.weights[symbol]? = some content.weight

namespace Tree

variable {frequencies : Frequencies S} {config : TableConfig} {tree : Tree S}

/-! ### The tokens of an alphabet -/

/-- An alphabet has that many tokens. -/
theorem length_alphabet (frequencies : Frequencies S) (config : TableConfig) :
    (alphabet frequencies config).length = tokenCount frequencies config := by
  have hsize : frequencies.toList.length = frequencies.size := Std.ExtTreeMap.length_toList
  rw [alphabet, tokenCount, List.length_append, List.length_map, hsize]
  split <;> simp [Nat.add_comm]

/-- No token is twice in an alphabet. -/
theorem nodup_alphabet (frequencies : Frequencies S) (config : TableConfig) :
    ((alphabet frequencies config).map (·.token)).Nodup := by
  have hkeys : frequencies.toList.Pairwise fun first second ↦ first.1 ≠ second.1 := by
    refine (Std.ExtTreeMap.distinct_keys_toList (t := frequencies.weights)).imp ?_
    intro first second hne heq
    exact hne (Std.LawfulEqCmp.compare_eq_iff_eq.mpr heq)
  have hsymbols : (frequencies.toList.map fun entry : S × Weight ↦ Token.symbol entry.1).Nodup := by
    rw [List.Nodup, List.pairwise_map]
    exact hkeys.imp fun hne heq ↦ hne (Token.symbol.inj heq)
  unfold alphabet
  rw [List.map_append, List.map_map]
  refine List.Nodup.append ?_ hsymbols ?_
  · split <;> simp
  · intro token hescape hsymbol
    obtain ⟨entry, _, rfl⟩ := List.mem_map.mp hsymbol
    split at hescape <;> simp at hescape

/-- The escape is in an alphabet if the configuration sets one aside. -/
theorem escape_mem_alphabet_iff (frequencies : Frequencies S) (config : TableConfig) :
    Token.escape ∈ (alphabet frequencies config).map (·.token) ↔ config.hasEscape = true := by
  unfold alphabet
  split <;> simp_all

/-- A symbol is in an alphabet if it was counted. -/
theorem symbol_mem_alphabet_iff (frequencies : Frequencies S) (config : TableConfig) {symbol : S} :
    Token.symbol symbol ∈ (alphabet frequencies config).map (·.token) ↔
      symbol ∈ frequencies.weights := by
  rw [Std.ExtTreeMap.mem_iff_isSome_getElem?, Option.isSome_iff_exists]
  unfold alphabet Frequencies.toList
  split <;> simp

/-- The leaves of an alphabet are that of the escape, if one is set aside, and one for each counted
symbol. -/
theorem mem_alphabet_iff (frequencies : Frequencies S) (config : TableConfig) {content : Leaf S} :
    content ∈ alphabet frequencies config ↔ content.BelongsTo frequencies config := by
  obtain ⟨token, weight⟩ := content
  unfold alphabet Frequencies.toList Leaf.BelongsTo
  cases token with
  | escape => split <;> simp_all
  | symbol symbol =>
    rw [List.mem_append, List.mem_map]
    constructor
    · rintro (hescape | ⟨entry, hentry, heq⟩)
      · split at hescape <;> simp at hescape
      · obtain ⟨rfl, rfl⟩ : entry.1 = symbol ∧ entry.2 = weight := by simpa using heq
        exact Std.ExtTreeMap.mem_toList_iff_getElem?_eq_some.mp hentry
    · intro hweight
      have hentry := Std.ExtTreeMap.mem_toList_iff_getElem?_eq_some.mpr hweight
      exact Or.inr ⟨(symbol, weight), hentry, rfl⟩

/-! ### Alphabets that have a tree -/

theorem alphabet_ne_nil {frequencies : Frequencies S} (h : frequencies.total ≠ 0)
    (config : TableConfig) : alphabet frequencies config ≠ [] := by
  intro hnil
  have hnone : frequencies.toList = [] := List.map_eq_nil_iff.mp (List.append_eq_nil_iff.mp hnil).2
  refine h ?_
  rw [Frequencies.total, hnone]
  rfl

theorem onlyAdds_afterCheck (frequencies : Frequencies S) (config : TableConfig) (_ : Unit) :
    Logged.OnlyAdds (if frequencies.total = 0 then throw .emptyAlphabet
      else if TableConfig.largestAlphabet < (alphabet frequencies config).length then
        throw (.alphabetTooLarge (alphabet frequencies config).length TableConfig.largestAlphabet)
      else widened config.lengthBound.toNat (alphabet frequencies config)) := by
  split
  · exact .throw _
  · split
    · exact .throw _
    · exact onlyAdds_widened _ _

theorem onlyAdds_build (frequencies : Frequencies S) (config : TableConfig) :
    (build frequencies config).OnlyAdds :=
  .bind (.ofExcept _) (onlyAdds_afterCheck frequencies config)

/-- What a configuration and counts need to have a tree. -/
structure IsCodable (frequencies : Frequencies S) (config : TableConfig) : Prop where
  check_eq : config.check = .ok ()
  total_ne_zero : frequencies.total ≠ 0
  length_le : (alphabet frequencies config).length ≤ TableConfig.largestAlphabet

/-- Without one of the needs there is no tree, and the error names the first need that is not
met. -/
theorem unheard_build (frequencies : Frequencies S) (config : TableConfig) :
    (build frequencies config).unheard = config.check >>= fun _ ↦
      if frequencies.total = 0 then .error .emptyAlphabet
      else if TableConfig.largestAlphabet < (alphabet frequencies config).length then
        .error (.alphabetTooLarge (alphabet frequencies config).length TableConfig.largestAlphabet)
      else (widened config.lengthBound.toNat (alphabet frequencies config)).unheard := by
  rw [build, Logged.unheard_bind (onlyAdds_afterCheck frequencies config), Logged.unheard_ofExcept]
  congr 1
  funext _
  split
  · rfl
  · split <;> rfl

theorem isCodable_iff {frequencies : Frequencies S} {config : TableConfig} :
    IsCodable frequencies config ↔ config.check = .ok () ∧ 0 < frequencies.total.toNat ∧
      tokenCount frequencies config ≤ 2 ^ 24 := by
  have htotal : 0 < frequencies.total.toNat ↔ frequencies.total ≠ 0 := by
    rw [Nat.pos_iff_ne_zero, not_iff_not]
    exact ⟨fun h ↦ Weight.ext h, fun h ↦ congrArg Weight.toNat h⟩
  rw [htotal, ← length_alphabet]
  exact ⟨fun h ↦ ⟨h.check_eq, h.total_ne_zero, h.length_le⟩, fun h ↦ ⟨h.1, h.2.1, h.2.2⟩⟩

theorem IsCodable.tokenCount_le (h : IsCodable frequencies config) :
    tokenCount frequencies config ≤ TableConfig.largestAlphabet := by
  rw [← length_alphabet]
  exact h.length_le

theorem IsCodable.one_le_effectiveBound (h : IsCodable frequencies config) :
    1 ≤ effectiveBound frequencies config :=
  (TableConfig.check_eq_ok_iff.mp h.check_eq).1.1.trans (Nat.le_max_left _ _)

theorem IsCodable.effectiveBound_le (h : IsCodable frequencies config) :
    effectiveBound frequencies config ≤ TableConfig.longestLength :=
  max_le (TableConfig.check_eq_ok_iff.mp h.check_eq).1.2 (sufficientLength_le h.tokenCount_le)

/-- Counts that are codable have a tree within the bound. -/
theorem IsCodable.exists_build (h : IsCodable frequencies config) :
    ∃ tree, (build frequencies config).unheard = .ok tree ∧
      tree.IsTreeWithin (effectiveBound frequencies config) (alphabet frequencies config) := by
  rw [unheard_build, h.check_eq, effectiveBound, ← length_alphabet]
  change ∃ tree, ite _ _ _ = _ ∧ _
  rw [if_neg h.total_ne_zero, if_neg (Nat.not_lt_of_le h.length_le)]
  exact exists_widened (alphabet_ne_nil h.total_ne_zero config) h.length_le

/-- Counts that have a tree are codable. -/
theorem isCodable_of_build (h : (build frequencies config).unheard = .ok tree) :
    IsCodable frequencies config := by
  rw [unheard_build, Outcome.bind_eq_ok_iff] at h
  obtain ⟨_, hcheck, hrest⟩ := h
  split_ifs at hrest with hzero hlarge
  exact ⟨hcheck, hzero, Nat.le_of_not_lt hlarge⟩

/-- Counts have a tree if and only if they are codable. -/
theorem exists_build_iff (frequencies : Frequencies S) (config : TableConfig) :
    (∃ tree, (build frequencies config).unheard = .ok tree) ↔ IsCodable frequencies config := by
  constructor
  · rintro ⟨tree, htree⟩
    exact isCodable_of_build htree
  · intro h
    obtain ⟨tree, htree, _⟩ := h.exists_build
    exact ⟨tree, htree⟩

/-- The errors of counts that are not codable: the configuration is not in order, nothing was
counted, or there are too many tokens. -/
inductive Refused (frequencies : Frequencies S) (config : TableConfig) : Error → Prop where
  | config {error : Error} (h : config.check = .error error) : Refused frequencies config error
  | empty (h : frequencies.total = 0) : Refused frequencies config .emptyAlphabet
  | large (h : TableConfig.largestAlphabet < (alphabet frequencies config).length) :
    Refused frequencies config
      (.alphabetTooLarge (alphabet frequencies config).length TableConfig.largestAlphabet)

/-- Nothing else can go wrong. -/
theorem refused_of_build {frequencies : Frequencies S} {config : TableConfig} {error : Error}
    (h : (build frequencies config).unheard = .error error) : Refused frequencies config error := by
  have hnot : ¬ IsCodable frequencies config := by
    intro hcodable
    obtain ⟨tree, htree, _⟩ := hcodable.exists_build
    rw [htree] at h
    cases h
  rw [unheard_build, Outcome.bind_eq_error_iff] at h
  rcases h with hcheck | ⟨_, hcheck, hrest⟩
  · exact .config hcheck
  · split_ifs at hrest with hzero hlarge
    · cases hrest
      exact .empty hzero
    · cases hrest
      exact .large hlarge
    · exact absurd ⟨hcheck, hzero, Nat.le_of_not_lt hlarge⟩ hnot

/-! ### The tree that an alphabet has -/

/-- The tree of an alphabet keeps to the bound. -/
theorem isTreeWithin_of_build (h : (build frequencies config).unheard = .ok tree) :
    tree.IsTreeWithin (effectiveBound frequencies config) (alphabet frequencies config) := by
  obtain ⟨other, hother, hwithin⟩ := (isCodable_of_build h).exists_build
  have heq : other = tree := Except.ok.inj (hother.symm.trans h)
  exact heq ▸ hwithin

/-- A merged tree that keeps to the bound is the tree of the alphabet. -/
theorem IsCodable.build_eq (h : IsCodable frequencies config) {merged : Tree S}
    (hmerged : ofLeaves? (alphabet frequencies config) = some merged)
    (hdepth : merged.depth ≤ effectiveBound frequencies config) :
    (build frequencies config).unheard = .ok merged := by
  obtain ⟨tree, htree, hwithin⟩ := h.exists_build
  obtain ⟨other, hother, hcases⟩ := hwithin.merged_or_limited
  rw [hmerged, Option.some.injEq] at hother
  subst hother
  rcases hcases with ⟨rfl, _⟩ | ⟨hdeep, _⟩
  · exact htree
  · exact absurd hdepth (Nat.not_le_of_lt hdeep)

theorem leafCount_of_build (h : (build frequencies config).unheard = .ok tree) :
    tree.leafCount = tokenCount frequencies config := by
  rw [(isTreeWithin_of_build h).leafCount_eq, length_alphabet]

theorem longest_le_effectiveBound (h : (build frequencies config).unheard = .ok tree) :
    tree.longest ≤ effectiveBound frequencies config :=
  max_le (isCodable_of_build h).one_le_effectiveBound (isTreeWithin_of_build h).depth_le

/-- A codeword has 32 digits, which is more than the bound can be. -/
theorem longest_le_of_build (h : (build frequencies config).unheard = .ok tree) :
    tree.longest ≤ 32 :=
  calc tree.longest ≤ effectiveBound frequencies config := longest_le_effectiveBound h
    _ ≤ TableConfig.longestLength := (isCodable_of_build h).effectiveBound_le
    _ ≤ 32 := by decide

/-- The leaves of the tree hold different tokens. -/
theorem nodup_tokens_of_build (h : (build frequencies config).unheard = .ok tree) :
    (tree.contents.map (·.token)).Nodup := by
  rw [((isTreeWithin_of_build h).contents_perm.map (·.token)).nodup_iff]
  exact nodup_alphabet frequencies config

end Tree

end HuffmanCoding
