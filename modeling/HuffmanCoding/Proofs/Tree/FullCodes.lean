import HuffmanCoding.Proofs.Tree.NodesFromLengths

/-!
# Full codes

A code is full if its codewords take up all bit sequences. Leaves with lengths in order have a tree
exactly if their code is full, and the tree then has each leaf at the end of its canonical way
(`HangsCanonically`). Any other list of lengths is refused, and so it is where the leaves are hung
one after the other in a list of nodes (`ofLengths_isExact`).
-/

set_option autoImplicit false
set_option relaxedAutoImplicit false

namespace HuffmanCoding.Tree

variable {S : Type}

/-- The leaves hang in the order of a list, each at the end of its canonical way. -/
structure HangsCanonically (tree : Tree S) (assigned : List (Leaf S × ℕ)) : Prop where
  leaves_eq : tree.leaves = assigned
  follow_number : ∀ (rank : ℕ) (content : Leaf S) (length : ℕ),
    assigned[rank]? = some (content, length) → ∃ number index,
      (canonicalNumbers (assigned.map (·.2)))[rank]? = some number ∧ number < 2 ^ length ∧
        tree.arena.follow tree.arena.root (Bits.ofNat length number) = some index ∧
        tree.arena.nodes[index]? = some (.leaf content)
  pairwise_numbers : (canonicalNumbers (assigned.map (·.2))).Pairwise (· < ·)

/-- The leaves of a tree that was made from lengths in order hang canonically. -/
theorem hangsCanonically_of_ofLengths {assigned : List (Leaf S × ℕ)} {tree : Tree S}
    (h : ofLengths assigned = .ok tree) (hsorted : (assigned.map (·.2)).Pairwise (· ≤ ·)) :
    tree.HangsCanonically assigned := by
  have hleaves := leaves_of_ofLengths h
  have hnumbered := (isNumbered_of_ofLengths h).1
  have hdepths : tree.depths = assigned.map (·.2) := by rw [← hleaves, depths]
  rw [← hdepths] at hsorted
  refine ⟨hleaves, fun rank content length hrank ↦ ?_, ?_⟩
  · rw [← hleaves, leaves_eq_paths, List.getElem?_map, Option.map_eq_some_iff] at hrank
    obtain ⟨⟨other, way⟩, hway, heq⟩ := hrank
    cases heq
    obtain ⟨place, hplace⟩ := mem_paths_iff.mp (List.mem_of_getElem? hway)
    refine ⟨Bits.toNat way, place, ?_, Bits.toNat_lt way, ?_, ?_⟩
    · rw [← hdepths, ← map_toNat_paths hsorted, List.map_map, List.getElem?_map, hway]
      rfl
    · rw [Bits.ofNat_toNat, follow_root hnumbered, hplace]
      rfl
    · exact getElem?_nodes_position hnumbered (mem_subtrees_iff.mpr ⟨way, hplace⟩)
  · rw [← hdepths]
    exact pairwise_canonicalNumbers hsorted

/-- Leaves with lengths in order have a tree exactly if codewords of these lengths take up all bit
sequences. If they take up less, the code is incomplete, and if they would take up more, it is not
prefix-free. The leaves of the tree hang canonically, and its nodes are those that arise where the
leaves are hung one after the other; what is refused is refused there, too. -/
theorem ofLengths_isExact (assigned : List (Leaf S × ℕ)) (hne : assigned ≠ [])
    (hsorted : (assigned.map (·.2)).Pairwise (· ≤ ·))
    (hshort : ∀ length ∈ assigned.map (·.2), 1 ≤ length ∧ length ≤ TableConfig.longestLength) :
    ((∃ tree, ofLengths assigned = .ok tree) ↔ kraftSum (assigned.map (·.2)) = 1) ∧
      (kraftSum (assigned.map (·.2)) < 1 → ofLengths assigned = .error .incompleteCode) ∧
      (1 < kraftSum (assigned.map (·.2)) →
        ∃ finding, ofLengths assigned = .error (.notPrefixFree finding)) ∧
      (∀ tree, ofLengths assigned = .ok tree → tree.HangsCanonically assigned) ∧
      Arena.ofLengths assigned = some ((Tree.ofLengths assigned).map arena) := by
  have hcanonical (tree : Tree S) (htree : ofLengths assigned = .ok tree) :=
    hangsCanonically_of_ofLengths htree hsorted
  have harena := Arena.ofLengths_eq hsorted hshort hne
  rcases ofLengths_cases hsorted with
    ⟨hroom, herror⟩ | ⟨hfull, tree, htree⟩ | ⟨hmore, tree, content, length, others, _, _, herror⟩
  · refine ⟨⟨fun ⟨tree, htree⟩ ↦ ?_, fun hfull ↦ absurd hfull hroom.ne⟩, fun _ ↦ herror,
      fun hmore ↦ absurd hmore hroom.not_gt, hcanonical, harena⟩
    rw [herror] at htree
    cases htree
  · exact ⟨⟨fun _ ↦ hfull, fun _ ↦ ⟨tree, htree⟩⟩, fun hroom ↦ absurd hfull hroom.ne,
      fun hmore ↦ absurd hfull hmore.ne', hcanonical, harena⟩
  · refine ⟨⟨fun ⟨tree, htree⟩ ↦ ?_, fun hfull ↦ absurd hfull hmore.ne'⟩,
      fun hroom ↦ absurd hmore hroom.not_gt, fun _ ↦ ⟨_, herror⟩, hcanonical, harena⟩
    rw [herror] at htree
    cases htree

/-- Lengths of one, two, three and three bits have a tree with the numbers zero, two, six and seven.
Without the last leaf room is left, and with a second leaf of one bit there is none for it. -/
theorem ofLengths_isExact_of_letters :
    let entry (letter : Char) (length : ℕ) : Leaf Char × ℕ := (⟨.symbol letter, 1⟩, length)
    (∃ tree, ofLengths [entry 'a' 1, entry 'b' 2, entry 'c' 3, entry 'd' 3] = .ok tree ∧
      tree.HangsCanonically [entry 'a' 1, entry 'b' 2, entry 'c' 3, entry 'd' 3]) ∧
    canonicalNumbers [1, 2, 3, 3] = [0, 2, 6, 7] ∧
    ofLengths [entry 'a' 1, entry 'b' 2, entry 'c' 3] = .error .incompleteCode ∧
    ∃ finding, ofLengths [entry 'a' 1, entry 'b' 1, entry 'c' 2] =
      .error (.notPrefixFree finding) := by
  intro entry
  have hfull := ofLengths_isExact [entry 'a' 1, entry 'b' 2, entry 'c' 3, entry 'd' 3] (by simp)
    (by simp [entry]) (by simp [entry, TableConfig.longestLength])
  have hroom := ofLengths_isExact [entry 'a' 1, entry 'b' 2, entry 'c' 3] (by simp)
    (by simp [entry]) (by simp [entry, TableConfig.longestLength])
  have hexcess := ofLengths_isExact [entry 'a' 1, entry 'b' 1, entry 'c' 2] (by simp)
    (by simp [entry]) (by simp [entry, TableConfig.longestLength])
  obtain ⟨tree, htree⟩ := hfull.1.mpr (by norm_num [entry, kraftShare])
  exact ⟨⟨tree, htree, hfull.2.2.2.1 tree htree⟩, rfl,
    hroom.2.1 (by norm_num [entry, kraftShare]), hexcess.2.2.1 (by norm_num [entry, kraftShare])⟩

end HuffmanCoding.Tree
