import HuffmanCoding.Proofs.Logged
import HuffmanCoding.Proofs.Outcome
import HuffmanCoding.Proofs.Tree.Canonical
import HuffmanCoding.Proofs.Tree.LengthLimit
import HuffmanCoding.Proofs.Tree.Merging
import HuffmanCoding.Tree.Build
import Mathlib.Order.Bounds.Defs

/-!
# Trees within a bound

The tree of some leaves is the one that merging yields, unless that is deeper than the bound allows;
then it is rebuilt with lengths that keep to the bound and reach it (`IsTreeWithin`). A bound that
is great enough for the number of leaves, as `sufficientLength` is, never makes this fail
(`exists_limitsTo`, `exists_widened`).
-/

set_option autoImplicit false
set_option relaxedAutoImplicit false

namespace HuffmanCoding

/-! ### Sufficient lengths -/

/-- The lengths of which there are enough codewords for that many tokens. -/
def SufficientLengths (tokens : ℕ) : Set ℕ :=
  {length | 1 ≤ length ∧ tokens ≤ 2 ^ length}

/-- The least sufficient length is found for every alphabet that has one. -/
theorem isLeast_sufficientLength {tokens : ℕ} (h : tokens ≤ TableConfig.largestAlphabet) :
    IsLeast (SufficientLengths tokens) (sufficientLength tokens) := by
  have hlargest : tokens ≤ 2 ^ TableConfig.longestLength := by
    rwa [TableConfig.largestAlphabet, Nat.one_shiftLeft] at h
  unfold sufficientLength
  cases hfind : (List.range' 1 TableConfig.longestLength).find? (tokens ≤ 1 <<< ·) with
  | none =>
    rw [List.find?_range'_eq_none] at hfind
    have := hfind TableConfig.longestLength (by decide) (by decide)
    simp [Nat.one_shiftLeft, hlargest] at this
  | some length =>
    obtain ⟨henough, hmem, hleast⟩ := List.find?_range'_eq_some.mp hfind
    simp only [Nat.one_shiftLeft, decide_eq_true_eq] at henough
    refine ⟨⟨(List.mem_range'_1.mp hmem).1, henough⟩, fun other ⟨hpos, hother⟩ ↦ ?_⟩
    by_contra hlt
    have := hleast other hpos (Nat.lt_of_not_le hlt)
    simp [Nat.one_shiftLeft, hother] at this

theorem sufficientLength_le {tokens : ℕ} (h : tokens ≤ TableConfig.largestAlphabet) :
    sufficientLength tokens ≤ TableConfig.longestLength := by
  refine (isLeast_sufficientLength h).2 ⟨by decide, ?_⟩
  rwa [TableConfig.largestAlphabet, Nat.one_shiftLeft] at h

namespace Tree

variable {S : Type}

/-! ### Lengths that keep to a bound -/

/-- The counts of the depths of a tree. -/
def lengthCounts (tree : Tree S) : LengthCounts :=
  LengthCounts.ofLengths tree.depth tree.depths

theorem length_lengthCounts (tree : Tree S) : tree.lengthCounts.length = tree.depth + 1 :=
  LengthCounts.length_ofLengths _ _

theorem sumOf_lengthCounts (tree : Tree S) (value : ℕ → ℚ) :
    tree.lengthCounts.sumOf value = (tree.depths.map value).sum :=
  LengthCounts.sumOf_ofLengths (fun _ h ↦ le_depth_of_mem_depths h) value

theorem total_lengthCounts (tree : Tree S) : tree.lengthCounts.total = tree.leafCount := by
  have hsum := (LengthCounts.total_eq_sumOf tree.lengthCounts).trans
    (tree.sumOf_lengthCounts fun _ ↦ 1)
  rw [List.map_const', List.sum_replicate, nsmul_eq_mul, mul_one, length_depths] at hsum
  exact_mod_cast hsum

theorem ofLength_lengthCounts (tree : Tree S) (length : ℕ) :
    tree.lengthCounts.ofLength length = tree.depths.count length :=
  LengthCounts.ofLength_ofLengths (fun _ h ↦ le_depth_of_mem_depths h) length

/-- The codewords of a tree take up all bit sequences. -/
theorem isFull_lengthCounts (tree : Tree S) : tree.lengthCounts.IsFull tree.depth where
  kraft_eq_one := (tree.sumOf_lengthCounts kraftShare).trans tree.kraftSum_depths
  none_longer := fun length hlength ↦ by
    rw [ofLength_lengthCounts]
    refine List.count_eq_zero_of_not_mem fun hmem ↦ ?_
    exact absurd (le_depth_of_mem_depths hmem) (Nat.not_le_of_lt hlength)

def ranked [Ord S] (tree : Tree S) : List (Leaf S) :=
  tree.contents.mergeSort outranks

/-- A run that brings a tree within a bound: its steps take away no more than there is, the lengths
that they leave are in order, and the tree with these lengths is `limited`. -/
structure LimitsTo [Ord S] (bound : ℕ) (tree limited : Tree S) (counts : LengthCounts) : Prop where
  limit_eq : tree.lengthCounts.limit bound = .ok counts
  exact : LengthCounts.RaisesLevels bound (tree.lengthCounts.length - 1 - bound) tree.lengthCounts
  sorted : counts.lengths.Pairwise (· ≤ ·)
  ofLengths_eq : ofLengths (tree.ranked.zip counts.lengths) = .ok limited
  contents_eq : limited.contents = tree.ranked
  depths_eq : limited.depths = counts.lengths
  depth_eq : limited.depth = bound

/-- A tree can be brought within every bound that leaves enough codewords. -/
theorem exists_limitsTo [Ord S] {tree : Tree S} {bound : ℕ} (hbound : 1 ≤ bound)
    (hdeep : bound ≤ tree.depth) (hcount : tree.leafCount ≤ 2 ^ bound) :
    ∃ limited counts, tree.LimitsTo bound limited counts := by
  have hused : 0 < tree.lengthCounts.ofLength tree.depth := by
    rw [ofLength_lengthCounts]
    exact List.count_pos_iff.mpr tree.depth_mem_depths
  obtain ⟨counts, hlimit, hleft, hexact⟩ := tree.isFull_lengthCounts.limit_eq_ok
    tree.length_lengthCounts hused hbound hdeep (tree.total_lengthCounts ▸ hcount)
  have hzero : counts.ofLength 0 = 0 := hleft.isFull.ofLength_zero hbound hleft.reaches
  have hlength : counts.lengths.length = tree.ranked.length := by
    have hsum := LengthCounts.sum_map_lengths hzero fun _ ↦ 1
    rw [← LengthCounts.total_eq_sumOf, hleft.total_eq, total_lengthCounts, List.map_const',
      List.sum_replicate, nsmul_eq_mul, mul_one] at hsum
    rw [ranked, List.length_mergeSort, length_contents]
    exact_mod_cast hsum
  have hlengths : (tree.ranked.zip counts.lengths).map (·.2) = counts.lengths :=
    List.map_snd_zip hlength.le
  have hcontents : (tree.ranked.zip counts.lengths).map (·.1) = tree.ranked :=
    List.map_fst_zip hlength.ge
  have hkraft : kraftSum counts.lengths = 1 := by
    rw [kraftSum, LengthCounts.sum_map_lengths hzero, hleft.isFull.kraft_eq_one]
  obtain ⟨limited, hlimited⟩ := exists_ofLengths (tree.ranked.zip counts.lengths)
    (by rw [hlengths]; exact counts.pairwise_lengths) (by rw [hlengths]; exact hkraft)
  have hleaves := leaves_of_ofLengths hlimited
  have hdepths : limited.depths = counts.lengths := by rw [depths, hleaves, hlengths]
  refine ⟨limited, counts, hlimit, hexact, counts.pairwise_lengths, hlimited,
    by rw [contents, hleaves, hcontents], hdepths, le_antisymm ?_ ?_⟩
  · have hmem := hdepths ▸ limited.depth_mem_depths
    have hpos := (LengthCounts.mem_lengths.mp hmem).2
    by_contra hdeeper
    rw [hleft.isFull.none_longer _ (Nat.lt_of_not_le hdeeper)] at hpos
    exact absurd hpos (Nat.lt_irrefl 0)
  · refine le_depth_of_mem_depths (hdepths ▸ ?_)
    exact LengthCounts.mem_lengths.mpr ⟨hbound, hleft.reaches⟩

theorem LimitsTo.limitDepth_eq [Ord S] {bound : ℕ} {tree limited : Tree S} {counts : LengthCounts}
    (h : tree.LimitsTo bound limited counts) : tree.limitDepth bound = .ok limited := by
  have hlimit : (LengthCounts.ofLengths tree.depth (tree.leaves.map (·.2))).limit bound =
      .ok counts := h.limit_eq
  rw [limitDepth, hlimit]
  exact h.ofLengths_eq

/-! ### The tree of some leaves -/

/-- A tree over some leaves that has the least weighted depth if that keeps to a bound, and reaches
the bound otherwise. -/
structure IsTreeWithin [Ord S] (bound : ℕ) (contents : List (Leaf S)) (tree : Tree S) : Prop where
  contents_perm : tree.contents.Perm contents
  merged_or_limited : ∃ merged, ofLeaves? contents = some merged ∧
    (tree = merged ∧ merged.depth ≤ bound ∨
      bound < merged.depth ∧ ∃ counts, merged.LimitsTo bound tree counts)

theorem IsTreeWithin.depth_le [Ord S] {bound : ℕ} {contents : List (Leaf S)} {tree : Tree S}
    (h : tree.IsTreeWithin bound contents) : tree.depth ≤ bound := by
  obtain ⟨merged, _, ⟨rfl, hle⟩ | ⟨_, counts, hlimits⟩⟩ := h.merged_or_limited
  · exact hle
  · exact hlimits.depth_eq.le

theorem IsTreeWithin.leafCount_eq [Ord S] {bound : ℕ} {contents : List (Leaf S)} {tree : Tree S}
    (h : tree.IsTreeWithin bound contents) : tree.leafCount = contents.length := by
  rw [← length_contents, h.contents_perm.length_eq]

theorem ofLeaves?_singleton (content : Leaf S) : ofLeaves? [content] = some (leaf 0 content) := by
  simp [ofLeaves?, Frontier.ofLeaves, Frontier.mergeRounds, Frontier.takeLightest, Frontier.settle]

variable [Symbol S]

theorem onlyAdds_within (bound : ℕ) (contents : List (Leaf S)) :
    (within bound contents).OnlyAdds := by
  unfold within
  split
  · exact .throw _
  · split
    · exact .pure _
    · exact .bind (.ofExcept _) fun limited ↦ .bind (.warn _) fun _ ↦ .pure limited

/-- There is a tree within every bound that leaves enough codewords. -/
theorem exists_within {bound : ℕ} {contents : List (Leaf S)} (hbound : 1 ≤ bound)
    (hne : contents ≠ []) (hcount : contents.length ≤ 2 ^ bound) :
    ∃ tree, (within bound contents).unheard = .ok tree ∧ tree.IsTreeWithin bound contents := by
  obtain ⟨merged, hmerged, _⟩ := exists_ofLeaves? hne
  have hperm := contents_perm_of_ofLeaves? hmerged
  simp only [within, hmerged]
  by_cases hle : merged.depth ≤ bound
  · rw [if_pos hle]
    exact ⟨merged, rfl, hperm, merged, hmerged, Or.inl ⟨rfl, hle⟩⟩
  · rw [if_neg hle]
    have hlt : bound < merged.depth := Nat.lt_of_not_le hle
    obtain ⟨limited, counts, hlimits⟩ := exists_limitsTo hbound hlt.le (by
      rw [← length_contents, hperm.length_eq]
      exact hcount)
    refine ⟨limited, ?_, ?_, merged, hmerged, Or.inr ⟨hlt, counts, hlimits⟩⟩
    · rw [hlimits.limitDepth_eq]
      rfl
    · rw [hlimits.contents_eq]
      exact (List.mergeSort_perm _ _).trans hperm

theorem onlyAdds_widened (bound : ℕ) (contents : List (Leaf S)) :
    (widened bound contents).OnlyAdds := by
  refine .bind (.warnIf _ _) fun _ ↦ ?_
  split
  · exact .bind (.warn _) fun _ ↦ .pure _
  · exact onlyAdds_within _ _

/-- A bound that gives way if it has to always has a tree. -/
theorem exists_widened {bound : ℕ} {contents : List (Leaf S)} (hne : contents ≠ [])
    (hcount : contents.length ≤ TableConfig.largestAlphabet) :
    ∃ tree, (widened bound contents).unheard = .ok tree ∧
      tree.IsTreeWithin (max bound (sufficientLength contents.length)) contents := by
  obtain ⟨hpos, henough⟩ := (isLeast_sufficientLength hcount).1
  match contents with
  | [] => exact absurd rfl hne
  | [content] =>
    refine ⟨leaf 0 content, ?_, List.Perm.refl _, leaf 0 content, ofLeaves?_singleton content,
      Or.inl ⟨rfl, Nat.zero_le _⟩⟩
    exact Logged.unheard_warnIf_bind _ _ (.bind (.warn _) fun _ ↦ .pure _)
  | first :: second :: others =>
    have henough' : (first :: second :: others).length ≤
        2 ^ max bound (sufficientLength (first :: second :: others).length) :=
      henough.trans (Nat.pow_le_pow_right (by omega) (Nat.le_max_right _ _))
    obtain ⟨tree, htree, hwithin⟩ := exists_within
      (hpos.trans (Nat.le_max_right bound _)) hne henough'
    refine ⟨tree, ?_, hwithin⟩
    exact (Logged.unheard_warnIf_bind _ _ (onlyAdds_within _ _)).trans htree

end Tree

end HuffmanCoding
