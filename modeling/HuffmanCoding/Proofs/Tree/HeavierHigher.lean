import HuffmanCoding.Proofs.Tables
import HuffmanCoding.Proofs.TokenOrder

/-!
# Heavier tokens have no longer codewords

Of two tokens of different weight the heavier one never has the longer codeword, whether the tree
was merged or rebuilt within a bound (`codewords_length_le_of_build`).

For a merged tree the rounds are followed backwards, from the tree that is left to the leaves.
`Frontier.PlacedWithin` says at which depths the trees of one round hang in the tree that is left:
no tree is more than one level below a merged one, and of the merged trees the older ones hang at
least as deep as the newer ones. The two trees that are joined are the lightest ones and hang one
level below the newest merged tree, where no other tree is deeper (`PlacedWithin.putBack`,
`PlacedWithin.unpush`). Neither ties nor sums that reach the limit of weights matter for this.

A rebuilt tree gives the shortest lengths to the heaviest leaves (`LimitsTo.isHeavierHigher`).
-/

set_option autoImplicit false
set_option relaxedAutoImplicit false

namespace HuffmanCoding

namespace Tree

variable {S : Type}

/-- Of two leaves of different weight the heavier one is not deeper. -/
def IsHeavierHigher (tree : Tree S) : Prop :=
  ∀ heavy ∈ tree.leaves, ∀ light ∈ tree.leaves,
    light.1.weight.toNat < heavy.1.weight.toNat → heavy.2 ≤ light.2

/-! ### Merged trees -/

namespace Frontier

/-- The trees that wait, each with the depth at which it hangs in the tree that is left in the
end. -/
structure Placement (S : Type) where
  leaves : List (Tree S × ℕ)
  merged : List (Tree S × ℕ)

def Placement.all (placement : Placement S) : List (Tree S × ℕ) :=
  placement.leaves ++ placement.merged

/-- The trees of a frontier hang at some depths, down to `bound` and not further. -/
structure PlacedWithin (frontier : Frontier S) (placement : Placement S) (bound : ℕ) : Prop where
  leaves_eq : placement.leaves.map (·.1) = frontier.leaves
  merged_eq : placement.merged.map (·.1) = frontier.merged
  heavier_le : ∀ heavy ∈ placement.all, ∀ light ∈ placement.all,
    light.1.weight.toNat < heavy.1.weight.toNat → heavy.2 ≤ light.2
  newer_le : placement.merged.Pairwise fun older newer ↦ newer.2 ≤ older.2
  le_bound : ∀ place ∈ placement.all, place.2 ≤ bound
  bound_le : ∀ place ∈ placement.merged, bound ≤ place.2 + 1

variable {frontier rest : Frontier S} {placement : Placement S} {bound : ℕ} {taken newest : Tree S}

theorem PlacedWithin.mem_trees (h : frontier.PlacedWithin placement bound) {place : Tree S × ℕ}
    (hplace : place ∈ placement.all) : place.1 ∈ frontier.trees := by
  have hall : placement.all.map (·.1) = frontier.trees := by
    rw [Placement.all, List.map_append, h.leaves_eq, h.merged_eq, trees]
  rw [← hall]
  exact List.mem_map_of_mem hplace

/-- Nothing waits, nothing is placed. -/
theorem placedWithin_of_trees_eq_nil (h : frontier.trees = []) (bound : ℕ) :
    frontier.PlacedWithin ⟨[], []⟩ bound := by
  obtain ⟨hleaves, hmerged⟩ := List.append_eq_nil_iff.mp h
  exact ⟨hleaves.symm, hmerged.symm, by simp [Placement.all], List.Pairwise.nil,
    by simp [Placement.all], by simp⟩

/-- A tree that is not heavier than the others can be put back at the bound. -/
theorem PlacedWithin.putBack (h : rest.PlacedWithin placement bound)
    (htake : frontier.takeLightest = some (taken, rest))
    (hlightest : ∀ other ∈ rest.trees, taken.weight ≤ other.weight) :
    ∃ before, frontier.PlacedWithin before bound ∧
      before.all.Perm ((taken, bound) :: placement.all) := by
  have hqueues : ∃ before : Placement S, before.leaves.map (·.1) = frontier.leaves ∧
      before.merged.map (·.1) = frontier.merged ∧
      (before.merged = placement.merged ∨ before.merged = (taken, bound) :: placement.merged) ∧
      before.all.Perm ((taken, bound) :: placement.all) := by
    rcases takeLightest_cases htake with ⟨hleaves, hmerged, _⟩ | ⟨hleaves, hmerged, _⟩
    · refine ⟨⟨(taken, bound) :: placement.leaves, placement.merged⟩, ?_, ?_, Or.inl rfl, .refl _⟩
      · rw [List.map_cons, h.leaves_eq, hleaves]
      · rw [h.merged_eq, hmerged]
    · refine ⟨⟨placement.leaves, (taken, bound) :: placement.merged⟩, ?_, ?_, Or.inr rfl,
        List.perm_middle⟩
      · rw [h.leaves_eq, hleaves]
      · rw [List.map_cons, h.merged_eq, hmerged]
  obtain ⟨before, hleaves, hmerged, hsame, hperm⟩ := hqueues
  have hplaced (place : Tree S × ℕ) (hplace : place ∈ before.all) :
      place = (taken, bound) ∨ place ∈ placement.all :=
    List.mem_cons.mp (hperm.mem_iff.mp hplace)
  have hbound (place : Tree S × ℕ) (hplace : place ∈ before.all) : place.2 ≤ bound := by
    rcases hplaced place hplace with rfl | hold
    · exact le_rfl
    · exact h.le_bound place hold
  refine ⟨before, ⟨hleaves, hmerged, fun heavy hheavy light hlight hweight ↦ ?_, ?_, hbound, ?_⟩,
    hperm⟩
  · rcases hplaced light hlight with rfl | hlight
    · exact hbound heavy hheavy
    · rcases hplaced heavy hheavy with rfl | hheavy
      · exact absurd (hlightest light.1 (h.mem_trees hlight)) (Nat.not_le_of_lt hweight)
      · exact h.heavier_le heavy hheavy light hlight hweight
  · rcases hsame with hsame | hsame
    · rw [hsame]
      exact h.newer_le
    · rw [hsame, List.pairwise_cons]
      exact ⟨fun place hplace ↦ h.le_bound place (List.mem_append_right _ hplace), h.newer_le⟩
  · intro place hplace
    rcases hsame with hsame | hsame
    · exact h.bound_le place (hsame ▸ hplace)
    · rw [hsame, List.mem_cons] at hplace
      rcases hplace with rfl | hold
      · exact Nat.le_succ bound
      · exact h.bound_le place hold

/-- Without the newest tree, the others hang no deeper than one level below where it hangs. -/
theorem PlacedWithin.unpush (h : (frontier.push newest).PlacedWithin placement bound) :
    ∃ before depth, frontier.PlacedWithin before (depth + 1) ∧
      placement.all.Perm ((newest, depth) :: before.all) := by
  have hmerged := h.merged_eq
  rw [merged_push, List.map_eq_append_iff] at hmerged
  obtain ⟨merged, last, hsplit, hmerged, hlast⟩ := hmerged
  obtain ⟨place, rfl, rfl⟩ := List.map_eq_singleton_iff.mp hlast
  have hall : placement.all.Perm (place :: (placement.leaves ++ merged)) := by
    rw [Placement.all, hsplit, ← List.append_assoc]
    exact List.perm_append_singleton place _
  have hold (other : Tree S × ℕ) (hother : other ∈ placement.leaves ++ merged) :
      other ∈ placement.all :=
    hall.mem_iff.mpr (List.mem_cons_of_mem place hother)
  have hplace : place ∈ placement.merged := by
    rw [hsplit]
    exact List.mem_append_right _ (List.mem_singleton_self place)
  have hnewer := h.newer_le
  rw [hsplit, List.pairwise_append] at hnewer
  refine ⟨⟨placement.leaves, merged⟩, place.2, ⟨h.leaves_eq, hmerged, ?_, hnewer.1, ?_, ?_⟩, hall⟩
  · exact fun heavy hheavy light hlight ↦
      h.heavier_le heavy (hold heavy hheavy) light (hold light hlight)
  · exact fun other hother ↦ (h.le_bound other (hold other hother)).trans (h.bound_le place hplace)
  · exact fun other hother ↦
      Nat.succ_le_succ (hnewer.2.2 other hother place (List.mem_singleton_self place))

/-- The trees of every round hang at some depths in the tree that is left in the end. -/
theorem Ordered.exists_placement {least : Weight} {rounds next : ℕ} {tree : Tree S}
    (hordered : frontier.Ordered least next) (hcount : frontier.trees.length = rounds + 1)
    (h : frontier.mergeRounds rounds next = some tree) :
    ∃ placement bound, frontier.PlacedWithin placement bound ∧
      tree.leaves.Perm (placement.all.flatMap fun place ↦ place.1.leavesBelow place.2) := by
  induction rounds generalizing least frontier next with
  | zero =>
    obtain ⟨rest, htake, hnil⟩ := takeLightest_of_mergeRounds h hcount
    obtain ⟨placement, hplaced, hall⟩ := (placedWithin_of_trees_eq_nil hnil 0).putBack htake
      (hordered.le_of_takeLightest htake)
    refine ⟨placement, 0, hplaced, List.Perm.trans ?_ (hall.flatMap_right _).symm⟩
    simp [Tree.leaves, Placement.all]
  | succ rounds ih =>
    obtain ⟨left, middle, right, last, hleft, hright, hrest, hlength⟩ :=
      exists_round_of_mergeRounds h hcount
    obtain ⟨after, bound, hafter, hleaves⟩ := ih (hordered.round hleft hright) hlength hrest
    obtain ⟨others, depth, hothers, hjoined⟩ := hafter.unpush
    obtain ⟨between, hbetween, hsecond⟩ :=
      hothers.putBack hright ((hordered.takeLightest hleft).2.le_of_takeLightest hright)
    obtain ⟨before, hbefore, hfirst⟩ := hbetween.putBack hleft (hordered.le_of_takeLightest hleft)
    refine ⟨before, depth + 1, hbefore, hleaves.trans ?_⟩
    refine ((hjoined.flatMap_right _).trans ?_).trans
      ((hfirst.trans (hsecond.cons _)).flatMap_right _).symm
    -- What hangs below the joined tree is what hangs below its two children.
    rw [List.flatMap_cons, List.flatMap_cons, List.flatMap_cons, join, leavesBelow,
      List.append_assoc]

end Frontier

/-- In a merged tree no leaf is deeper than a lighter one. -/
theorem isHeavierHigher_of_ofLeaves? {contents : List (Leaf S)} {tree : Tree S}
    (h : ofLeaves? contents = some tree) : tree.IsHeavierHigher := by
  obtain ⟨placement, bound, hplaced, hleaves⟩ :=
    (Frontier.ordered_ofLeaves contents).exists_placement
      (Frontier.length_trees_ofLeaves (ne_nil_of_ofLeaves? h)) h
  have hplace (entry : Leaf S × ℕ) (hentry : entry ∈ tree.leaves) :
      ∃ place ∈ placement.all, place.1.weight = entry.1.weight ∧ place.2 = entry.2 := by
    obtain ⟨place, hmem, hbelow⟩ := List.mem_flatMap.mp (hleaves.mem_iff.mp hentry)
    have hwaits := (Frontier.trees_ofLeaves_perm contents).mem_iff.mp (hplaced.mem_trees hmem)
    obtain ⟨content, _, hleaf⟩ := List.mem_map.mp hwaits
    rw [← hleaf, leavesBelow, List.mem_singleton] at hbelow
    exact ⟨place, hmem, by rw [hbelow, ← hleaf]; rfl, by rw [hbelow]⟩
  intro heavy hheavy light hlight hweight
  obtain ⟨first, hfirst, hfirstWeight, hfirstDepth⟩ := hplace heavy hheavy
  obtain ⟨second, hsecond, hsecondWeight, hsecondDepth⟩ := hplace light hlight
  rw [← hfirstWeight, ← hsecondWeight] at hweight
  rw [← hfirstDepth, ← hsecondDepth]
  exact hplaced.heavier_le first hfirst second hsecond hweight

/-! ### Rebuilt trees -/

section Limited

variable [Symbol S]

theorem outranks_iff {first second : Leaf S} : outranks first second = true ↔
    second.weight.toNat < first.weight.toNat ∨
      first.weight.toNat = second.weight.toNat ∧ first.token.precedes second.token = true := by
  rw [outranks, Bool.or_eq_true, Bool.and_eq_true, decide_eq_true_eq, decide_eq_true_eq,
    Weight.ext_iff]

/-- Leaves are ranked by their weights. -/
theorem pairwise_ranked (tree : Tree S) :
    tree.ranked.Pairwise fun first second ↦ second.weight.toNat ≤ first.weight.toNat := by
  have hsorted : tree.ranked.Pairwise fun first second ↦ outranks first second = true := by
    refine List.pairwise_mergeSort (fun first second third hfirst hsecond ↦ ?_)
      (fun first second ↦ ?_) tree.contents
    · rw [outranks_iff] at hfirst hsecond ⊢
      rcases hfirst with hfirst | ⟨hfirst, hbefore⟩ <;>
        rcases hsecond with hsecond | ⟨hsecond, hbehind⟩
      · exact Or.inl (hsecond.trans hfirst)
      · exact Or.inl (hsecond ▸ hfirst)
      · exact Or.inl (hfirst ▸ hsecond)
      · exact Or.inr ⟨hfirst.trans hsecond, Token.precedes_trans hbefore hbehind⟩
    · rw [Bool.or_eq_true, outranks_iff, outranks_iff]
      rcases Nat.lt_trichotomy first.weight.toNat second.weight.toNat with hlt | heq | hgt
      · exact Or.inr (Or.inl hlt)
      · rcases Bool.or_eq_true_iff.mp (Token.precedes_total first.token second.token) with h | h
        · exact Or.inl (Or.inr ⟨heq, h⟩)
        · exact Or.inr (Or.inr ⟨heq.symm, h⟩)
      · exact Or.inl (Or.inl hgt)
  exact hsorted.imp fun h ↦ (outranks_iff.mp h).elim Nat.le_of_lt fun h ↦ h.1.ge

/-- In a rebuilt tree no leaf is deeper than a lighter one. -/
theorem LimitsTo.isHeavierHigher {bound : ℕ} {tree limited : Tree S} {counts : LengthCounts}
    (h : tree.LimitsTo bound limited counts) : limited.IsHeavierHigher := by
  have hweights := tree.pairwise_ranked
  rw [← h.contents_eq, contents, List.pairwise_map] at hweights
  have hdepths := h.sorted
  rw [← h.depths_eq, depths, List.pairwise_map] at hdepths
  have hforth : limited.leaves.Pairwise fun first second ↦
      second.1.weight.toNat < first.1.weight.toNat → first.2 ≤ second.2 :=
    hdepths.imp fun {_ _} hle ↦ fun _ ↦ hle
  have hback : limited.leaves.Pairwise fun first second ↦
      first.1.weight.toNat < second.1.weight.toNat → second.2 ≤ first.2 :=
    hweights.imp fun {_ _} hle hlt ↦ absurd hle (Nat.not_le_of_lt hlt)
  intro heavy hheavy light hlight
  exact hforth.forall_of_forall_of_flip (fun _ _ _ ↦ le_rfl) hback hheavy hlight

/-- In the tree of an alphabet no leaf is deeper than a lighter one. -/
theorem isHeavierHigher_of_build {frequencies : Frequencies S} {config : TableConfig}
    {tree : Tree S} (h : (build frequencies config).unheard = .ok tree) :
    tree.IsHeavierHigher := by
  obtain ⟨merged, hmerged, ⟨rfl, _⟩ | ⟨_, counts, hlimits⟩⟩ :=
    (isTreeWithin_of_build h).merged_or_limited
  · exact isHeavierHigher_of_ofLeaves? hmerged
  · exact hlimits.isHeavierHigher

end Limited

end Tree

/-! ### Codewords -/

section Codewords

variable {S : Type} [Symbol S]

omit [Symbol S] in
/-- The ways that codewords spell are no longer for heavier leaves. -/
theorem Tree.IsHeavierHigher.length_le {tree : Tree S} (h : tree.IsHeavierHigher)
    {heavy light : Leaf S × Bits} (hheavy : heavy ∈ tree.ways) (hlight : light ∈ tree.ways)
    (hweight : light.1.weight.toNat < heavy.1.weight.toNat) :
    heavy.2.length ≤ light.2.length := by
  cases tree with
  | leaf position content =>
    rw [List.mem_singleton.mp hheavy, List.mem_singleton.mp hlight]
  | node position weight left right =>
    have hdepth (way : Leaf S × Bits) (hway : way ∈ (node position weight left right).paths) :
        (way.1, way.2.length) ∈ (node position weight left right).leaves := by
      rw [leaves_eq_paths]
      exact List.mem_map_of_mem hway
    exact h _ (hdepth heavy hheavy) _ (hdepth light hlight) hweight

variable {frequencies : Frequencies S} {config : TableConfig} {tree : Tree S}

/-- Each token of an alphabet has a codeword, which spells the way to its leaf. -/
theorem Codebook.exists_codewordFor?_of_build
    (h : (Tree.build frequencies config).unheard = .ok tree) {content : Leaf S}
    (hcontent : content.BelongsTo frequencies config) :
    ∃ codeword way, (ofTree tree).codewordFor? content.token = some codeword ∧
      (content, way) ∈ tree.ways ∧ codeword.length.toNat = way.length := by
  have hmem : content ∈ tree.contents := by
    rw [(Tree.isTreeWithin_of_build h).contents_perm.mem_iff, Tree.mem_alphabet_iff]
    exact hcontent
  rw [Tree.contents_eq_ways] at hmem
  obtain ⟨⟨content, way⟩, hway, rfl⟩ := List.mem_map.mp hmem
  have hrow : CodeRow.ofWay (content, way) ∈ (ofTree tree).rows :=
    (rows_ofTree_perm tree).mem_iff.mpr (List.mem_map_of_mem hway)
  refine ⟨_, way, ?_, hway, length_ofWay (Tree.longest_le_of_build h) hway⟩
  exact ((Tables.isPrefixCode_of_build h).codewordFor?_eq_some_iff _).mpr ⟨_, hrow, rfl, rfl⟩

/-- Both of two tokens have codewords, and that of the heavier token is not longer than that of the
lighter one. -/
theorem Codebook.codewords_length_le_of_build
    (h : (Tree.build frequencies config).unheard = .ok tree) {heavy light : Leaf S}
    (hheavy : heavy.BelongsTo frequencies config) (hlight : light.BelongsTo frequencies config)
    (hweight : light.weight.toNat < heavy.weight.toNat) :
    ∃ short long, (ofTree tree).codewordFor? heavy.token = some short ∧
      (ofTree tree).codewordFor? light.token = some long ∧ short.length ≤ long.length := by
  obtain ⟨short, first, hshort, hfirst, hfirstLength⟩ := exists_codewordFor?_of_build h hheavy
  obtain ⟨long, second, hlong, hsecond, hsecondLength⟩ := exists_codewordFor?_of_build h hlight
  refine ⟨short, long, hshort, hlong, UInt8.le_iff_toNat_le.mpr ?_⟩
  rw [hfirstLength, hsecondLength]
  exact (Tree.isHeavierHigher_of_build h).length_le hfirst hsecond hweight

/-- Three letters of which one was never seen and two are as heavy as can be, with an escape. -/
def heaviestLetters : Frequencies Char :=
  ((Frequencies.empty.replace 'a' 0).replace 'b' (.ofNat Weight.limit)).replace 'c'
    (.ofNat Weight.limit)

/-- Also when sums reach the limit of weights, and when the tree is rebuilt within a bound, the
heavier one of two tokens has no longer codeword. -/
theorem Codebook.codewords_length_le_of_heaviestLetters :
    (∃ tree : Tree Char, (Tree.build heaviestLetters ⟨20, 2, true, 1⟩).unheard = .ok tree ∧
      ∃ short long, (ofTree tree).codewordFor? (.symbol 'b') = some short ∧
        (ofTree tree).codewordFor? .escape = some long ∧ short.length ≤ long.length) ∧
    ∃ tree : Tree Char, (Tree.build heaviestLetters ⟨2, 2, true, 1⟩).unheard = .ok tree ∧
      ∃ short long, (ofTree tree).codewordFor? .escape = some short ∧
        (ofTree tree).codewordFor? (.symbol 'a') = some long ∧ short.length ≤ long.length := by
  have hnever : heaviestLetters.weights['a']? = some 0 := by decide +kernel
  have hoften : heaviestLetters.weights['b']? = some (.ofNat Weight.limit) := by decide +kernel
  constructor
  · have hcodable : Tree.IsCodable heaviestLetters ⟨20, 2, true, 1⟩ :=
      Tree.isCodable_iff.mpr ⟨by decide, by decide +kernel, by decide +kernel⟩
    obtain ⟨tree, htree, _⟩ := hcodable.exists_build
    exact ⟨tree, htree, codewords_length_le_of_build htree
      (show (⟨.symbol 'b', .ofNat Weight.limit⟩ : Leaf Char).BelongsTo _ _ from hoften)
      (show (⟨.escape, 1⟩ : Leaf Char).BelongsTo _ _ from ⟨rfl, rfl⟩) (by decide)⟩
  · have hcodable : Tree.IsCodable heaviestLetters ⟨2, 2, true, 1⟩ :=
      Tree.isCodable_iff.mpr ⟨by decide, by decide +kernel, by decide +kernel⟩
    obtain ⟨tree, htree, _⟩ := hcodable.exists_build
    exact ⟨tree, htree, codewords_length_le_of_build htree
      (show (⟨.escape, 1⟩ : Leaf Char).BelongsTo _ _ from ⟨rfl, rfl⟩)
      (show (⟨.symbol 'a', 0⟩ : Leaf Char).BelongsTo _ _ from hnever) (by decide)⟩

end Codewords

end HuffmanCoding
