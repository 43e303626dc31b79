import HuffmanCoding.Proofs.Tables
import HuffmanCoding.Proofs.Tree.Optimality

/-!
# Codebooks of least weighted length

The weighted length of the codebook of a tree is the cost of the tree, or the weight of its token if
there is only one, since that token has a codeword of one bit. So where the merged tree keeps to the
bound, and no sum of weights reaches the limit at which weights stop, the codebook has the least
weighted length of all prefix codes for the same tokens (`weightedLength_le`).
-/

set_option autoImplicit false
set_option relaxedAutoImplicit false

namespace HuffmanCoding.Codebook

variable {S : Type} [Symbol S]

omit [Symbol S] in
/-- A sum over the rows of a tree is a sum over the leaves. -/
theorem sum_map_rows {rows : List (CodeRow S)} {tree : Tree S}
    (hrows : rows.Perm (tree.ways.map CodeRow.ofWay)) (value : Token S → Weight → ℕ) :
    (rows.map fun row ↦ value row.token row.weight).sum =
      (tree.contents.map fun content ↦ value content.token content.weight).sum := by
  rw [(hrows.map _).sum_eq, Tree.contents_eq_ways, List.map_map, List.map_map]
  rfl

/-- The weighted length of the codebook of a tree with several leaves is the cost of the tree. -/
theorem weightedLength_ofTree {tree : Tree S} (hlongest : tree.longest ≤ 32)
    (hinner : tree.isLeaf = false) : (ofTree tree).weightedLength = tree.cost := by
  have hperm := (rows_ofTree_perm tree).map fun row ↦ row.weight.toNat * row.codeword.length.toNat
  have hsum : (ofTree tree).weightedLength =
      ((ofTree tree).rows.map fun row ↦ row.weight.toNat * row.codeword.length.toNat).sum := rfl
  rw [hsum, hperm.sum_eq, Tree.cost, weightedSum, Tree.leaves_eq_paths, ← Tree.ways_eq_paths hinner,
    List.map_map, List.map_map]
  refine congrArg List.sum (List.map_congr_left fun way hway ↦ ?_)
  show (CodeRow.ofWay way).weight.toNat * (CodeRow.ofWay way).codeword.length.toNat = _
  rw [length_ofWay hlongest hway]
  rfl

/-- The codebook of a lone leaf spends one bit on it. -/
theorem weightedLength_ofTree_leaf (position : ℕ) (content : Leaf S) :
    (ofTree (Tree.leaf position content)).weightedLength = content.weight.toNat := by
  have hrows : (ofTree (Tree.leaf position content)).rows = (Tree.leaf position content).rows :=
    List.mergeSort_singleton _
  simp only [weightedLength, hrows, Tree.rows, List.map_cons, List.map_nil, List.foldr_cons,
    List.foldr_nil, Nat.add_zero]
  exact Nat.mul_one _

/-- No lengths for the tokens of a prefix code yield a smaller sum of weights times lengths than the
codewords of merged leaves, as long as the sum of all weights is a weight and the merged tree keeps
to the bound. -/
theorem weightedLength_le {frequencies : Frequencies S} {config : TableConfig}
    {tree merged : Tree S} (htree : (Tree.build frequencies config).unheard = .ok tree)
    (hlimit : ((alphabet frequencies config).map (·.weight.toNat)).sum < UInt64.size)
    (hmerged : Tree.ofLeaves? (alphabet frequencies config) = some merged)
    (hdepth : merged.depth ≤ effectiveBound frequencies config) (lengths : Token S → ℕ)
    (hpos : ∀ row ∈ (ofTree tree).rows, 1 ≤ lengths row.token)
    (hkraft : kraftSum ((ofTree tree).rows.map fun row ↦ lengths row.token) ≤ 1) :
    (ofTree tree).weightedLength ≤
      ((ofTree tree).rows.map fun row ↦ row.weight.toNat * lengths row.token).sum := by
  have hwithin := Tree.isTreeWithin_of_build htree
  have hroom := Tree.longest_le_of_build htree
  obtain ⟨other, hother, hcases⟩ := hwithin.merged_or_limited
  rw [hmerged, Option.some.injEq] at hother
  subst hother
  rcases hcases with ⟨rfl, _⟩ | ⟨hdeep, _⟩
  swap
  · exact absurd hdepth (Nat.not_le_of_lt hdeep)
  rw [sum_map_rows (rows_ofTree_perm tree) fun token weight ↦ weight.toNat * lengths token]
  cases hleaf : tree.isLeaf with
  | true =>
    obtain ⟨position, content, rfl⟩ : ∃ position content, tree = Tree.leaf position content := by
      cases tree with
      | leaf position content => exact ⟨position, content, rfl⟩
      | node position weight left right => cases hleaf
    have hrow : CodeRow.ofWay (content, [false]) ∈ (ofTree (Tree.leaf position content)).rows := by
      rw [(rows_ofTree_perm _).mem_iff]
      exact List.mem_singleton_self _
    rw [weightedLength_ofTree_leaf, Tree.contents_leaf, List.map_singleton, List.sum_singleton]
    exact Nat.le_mul_of_pos_right _ (hpos _ hrow)
  | false =>
    have hcontents := hwithin.contents_perm
    have hrows := (rows_ofTree_perm tree).map fun row ↦ lengths row.token
    rw [List.map_map] at hrows
    have hlengths : kraftSum ((alphabet frequencies config).map fun content ↦
        lengths content.token) ≤ 1 := by
      rw [← kraftSum_perm (hcontents.map _), Tree.contents_eq_ways, List.map_map]
      rwa [kraftSum_perm hrows] at hkraft
    rw [weightedLength_ofTree hroom hleaf, (hcontents.map _).sum_eq]
    exact Tree.cost_le_sum_lengths hmerged (Nat.le_sub_one_of_lt hlimit) lengths hlengths

/-- For four letters, of which one makes up half of the text, two bits for each are not shorter. -/
theorem weightedLength_le_of_four_letters :
    let frequencies := (((Frequencies.empty.add 'a' 1).add 'b' 1).add 'c' 2).add 'd' 4
    ∃ tree merged, (Tree.build frequencies .strict).unheard = .ok tree ∧
      Tree.ofLeaves? (alphabet frequencies .strict) = some merged ∧ merged.depth = 3 ∧
      (ofTree tree).weightedLength ≤
        ((ofTree tree).rows.map fun row ↦ row.weight.toNat * 2).sum := by
  intro frequencies
  obtain ⟨tree, htree⟩ := (Tree.exists_build_iff frequencies .strict).mpr
    ⟨by decide, by decide +kernel, by decide +kernel⟩
  obtain ⟨merged, hmerged, hdepth⟩ : ∃ merged,
      Tree.ofLeaves? (alphabet frequencies .strict) = some merged ∧ merged.depth = 3 := by
    rw [← Option.map_eq_some_iff, Tree.ofLeaves?,
      Tree.Frontier.ofLeaves_of_pairwise (by decide +kernel)]
    decide +kernel
  have hsize : (ofTree tree).rows.length = 4 := by
    have hcount := Tree.leafCount_of_build htree
    rw [← size_ofTree] at hcount
    exact hcount.trans (by decide +kernel)
  refine ⟨tree, merged, htree, hmerged, hdepth, weightedLength_le htree (by decide +kernel) hmerged
    ?_ (fun _ ↦ 2) (fun _ _ ↦ by decide) ?_⟩
  · rw [hdepth]
    decide +kernel
  · rw [List.map_const', hsize]
    norm_num [kraftSum, kraftShare]

end HuffmanCoding.Codebook
