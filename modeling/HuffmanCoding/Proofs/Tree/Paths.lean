import HuffmanCoding.Codebook
import HuffmanCoding.Proofs.Codeword
import HuffmanCoding.Proofs.Kraft

/-!
# Paths in a code tree

The way from the root to a leaf is a bit sequence, `paths` lists these ways from left to right. No
way begins another one (`pairwise_paths`), and together they take up all bit sequences
(`kraftSum_depths`): whatever the tree, its codewords form a full prefix code. The number of edges
on a way is the depth that `leaves` counts, and `rowsBelow` spells the way as a codeword.
-/

set_option autoImplicit false
set_option relaxedAutoImplicit false

namespace HuffmanCoding.Tree

variable {S : Type}

/-- The leaves from left to right, each with the way from the root to it. -/
def paths : Tree S → List (Leaf S × Bits)
  | leaf _ content => [(content, [])]
  | node _ _ left right =>
    left.paths.map (fun way ↦ (way.1, false :: way.2)) ++
      right.paths.map fun way ↦ (way.1, true :: way.2)

def contents (tree : Tree S) : List (Leaf S) :=
  tree.leaves.map (·.1)

def depths (tree : Tree S) : List ℕ :=
  tree.leaves.map (·.2)

/-! ### Leaves and their depths -/

/-- Hanging a tree lower adds to the depth of each leaf. -/
theorem leavesBelow_add (tree : Tree S) (above more : ℕ) :
    tree.leavesBelow (above + more) =
      (tree.leavesBelow above).map fun entry ↦ (entry.1, entry.2 + more) := by
  induction tree generalizing above with
  | leaf position content => rfl
  | node position weight left right ihLeft ihRight =>
    simp only [leavesBelow, List.map_append]
    rw [Nat.add_right_comm, ihLeft, ihRight]

@[simp] theorem leaves_leaf (position : ℕ) (content : Leaf S) :
    (leaf position content).leaves = [(content, 0)] := rfl

theorem leaves_node (position : ℕ) (weight : Weight) (left right : Tree S) :
    (node position weight left right).leaves =
      left.leaves.map (fun entry ↦ (entry.1, entry.2 + 1)) ++
        right.leaves.map fun entry ↦ (entry.1, entry.2 + 1) := by
  simp only [leaves, leavesBelow, leavesBelow_add]

@[simp] theorem contents_leaf (position : ℕ) (content : Leaf S) :
    (leaf position content).contents = [content] := rfl

@[simp] theorem contents_node (position : ℕ) (weight : Weight) (left right : Tree S) :
    (node position weight left right).contents = left.contents ++ right.contents := by
  simp [contents, leaves_node, Function.comp_def]

@[simp] theorem contents_join (position : ℕ) (left right : Tree S) :
    (join position left right).contents = left.contents ++ right.contents :=
  contents_node position _ left right

@[simp] theorem depths_leaf (position : ℕ) (content : Leaf S) :
    (leaf position content).depths = [0] := rfl

theorem depths_node (position : ℕ) (weight : Weight) (left right : Tree S) :
    (node position weight left right).depths =
      left.depths.map (· + 1) ++ right.depths.map (· + 1) := by
  simp [depths, leaves_node, Function.comp_def]

@[simp] theorem length_contents (tree : Tree S) : tree.contents.length = tree.leafCount := by
  simp [contents, leafCount]

@[simp] theorem length_depths (tree : Tree S) : tree.depths.length = tree.leafCount := by
  simp [depths, leafCount]

theorem contents_ne_nil (tree : Tree S) : tree.contents ≠ [] := by
  induction tree with
  | leaf position content => simp
  | node position weight left right ihLeft _ => simp [ihLeft]

/-- The deepest leaf is at the depth of the tree. -/
theorem depth_mem_depths (tree : Tree S) : tree.depth ∈ tree.depths := by
  induction tree with
  | leaf position content => simp [depth]
  | node position weight left right ihLeft ihRight =>
    rw [depths_node, depth, List.mem_append, List.mem_map, List.mem_map]
    rcases Nat.le_total right.depth left.depth with h | h
    · exact Or.inl ⟨left.depth, ihLeft, by rw [Nat.max_eq_left h]⟩
    · exact Or.inr ⟨right.depth, ihRight, by rw [Nat.max_eq_right h]⟩

/-- No leaf is deeper than the tree. -/
theorem le_depth_of_mem_depths {tree : Tree S} {length : ℕ} (h : length ∈ tree.depths) :
    length ≤ tree.depth := by
  induction tree generalizing length with
  | leaf position content =>
    rw [depths_leaf, List.mem_singleton] at h
    exact h.le
  | node position weight left right ihLeft ihRight =>
    simp only [depths_node, List.mem_append, List.mem_map] at h
    rcases h with ⟨inner, hinner, rfl⟩ | ⟨inner, hinner, rfl⟩
    · exact Nat.succ_le_succ ((ihLeft hinner).trans (Nat.le_max_left _ _))
    · exact Nat.succ_le_succ ((ihRight hinner).trans (Nat.le_max_right _ _))

/-- The codewords of a tree take up all bit sequences. -/
theorem kraftSum_depths (tree : Tree S) : kraftSum tree.depths = 1 := by
  induction tree with
  | leaf position content => simp
  | node position weight left right ihLeft ihRight =>
    have hleft := kraftSum_map_succ left.depths
    have hright := kraftSum_map_succ right.depths
    rw [depths_node, kraftSum_append]
    linarith

/-- Only a lone leaf is at the root. -/
theorem pos_of_mem_depths {tree : Tree S} (hinner : tree.isLeaf = false) {length : ℕ}
    (h : length ∈ tree.depths) : 0 < length := by
  cases tree with
  | leaf position content => simp [isLeaf] at hinner
  | node position weight left right =>
    simp only [depths_node, List.mem_append, List.mem_map] at h
    rcases h with ⟨inner, _, rfl⟩ | ⟨inner, _, rfl⟩ <;> exact Nat.succ_pos inner

theorem leafCount_eq_one_iff {tree : Tree S} : tree.leafCount = 1 ↔ tree.isLeaf = true := by
  cases tree with
  | leaf position content => simp [leafCount, isLeaf]
  | node position weight left right =>
    have hleft := List.length_pos_of_ne_nil left.contents_ne_nil
    have hright := List.length_pos_of_ne_nil right.contents_ne_nil
    rw [← length_contents, contents_node, List.length_append]
    simp only [isLeaf, Bool.false_eq_true, iff_false]
    omega

/-! ### Ways -/

/-- The depth of a leaf is the length of the way to it. -/
theorem leaves_eq_paths (tree : Tree S) :
    tree.leaves = tree.paths.map fun way ↦ (way.1, way.2.length) := by
  induction tree with
  | leaf position content => rfl
  | node position weight left right ihLeft ihRight =>
    simp [leaves_node, paths, ihLeft, ihRight, Function.comp_def]

theorem contents_eq_paths (tree : Tree S) : tree.contents = tree.paths.map (·.1) := by
  simp [contents, leaves_eq_paths, Function.comp_def]

theorem depths_eq_paths (tree : Tree S) : tree.depths = tree.paths.map (·.2.length) := by
  simp [depths, leaves_eq_paths, Function.comp_def]

/-- No way from the root to a leaf begins the way to another one. -/
theorem pairwise_paths (tree : Tree S) :
    tree.paths.Pairwise fun first second ↦ Bits.Part first.2 second.2 := by
  induction tree with
  | leaf position content => simp [paths]
  | node position weight left right ihLeft ihRight =>
    rw [paths, List.pairwise_append, List.pairwise_map, List.pairwise_map]
    refine ⟨?_, ?_, ?_⟩
    · exact ihLeft.imp fun h ↦ by simpa [Bits.Part] using h
    · exact ihRight.imp fun h ↦ by simpa [Bits.Part] using h
    · intro first hfirst second hsecond
      obtain ⟨below, _, rfl⟩ := List.mem_map.mp hfirst
      obtain ⟨other, _, rfl⟩ := List.mem_map.mp hsecond
      simp [Bits.Part]

/-! ### Rows -/

/-- The rows below a codeword spell the ways to the leaves behind that codeword. -/
theorem rowsBelow_eq_paths (tree : Tree S) (above : Codeword) :
    tree.rowsBelow above = tree.paths.map fun way ↦
      ⟨way.1.token, above.extend way.2, way.1.weight⟩ := by
  induction tree generalizing above with
  | leaf position content => rfl
  | node position weight left right ihLeft ihRight =>
    simp [rowsBelow, paths, ihLeft, ihRight, Function.comp_def]

end HuffmanCoding.Tree
