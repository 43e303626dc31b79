import HuffmanCoding.Proofs.Tree.Numbering
import HuffmanCoding.Tree.Arena
import Mathlib.Data.List.Sort
import Mathlib.Order.Bounds.Defs

/-!
# Trees as lists of nodes, and back

The list of nodes that is stored for a tree has each node at its own position, since the positions
of a tree that was built are those of the list (`getElem?_nodes_iff`). So following the children
that inner nodes name is following the tree (`follow_position`), and nothing of the tree is lost in
the list: every node but the root is the child of one inner node on one side, one way leads from the
root to each node, and no way leads out of the list (`Arena.IsRooted`).

What the list says of leaves, weights and lengths is then what the counts and the configuration call
for (`Arena.Represents`, `arena_represents_of_build`).
-/

set_option autoImplicit false
set_option relaxedAutoImplicit false

namespace HuffmanCoding.Tree

variable {S : Type}

/-! ### Following children -/

theorem child_branch (weight : Weight) (left right : Tree S) (bit : Bool) :
    Branch.child ⟨left.position, right.position, weight⟩ bit =
      (bif bit then right else left).position := by
  cases bit <;> rfl

def Entry.leaf? : Entry S → Option (Leaf S)
  | .leaf content => some content
  | .branch _ => none

namespace Arena

def leaves (arena : Arena S) : List (Leaf S) :=
  arena.nodes.filterMap Entry.leaf?

/-- The node at `index` is a child of the inner node at a place, on the side of a bit. -/
def IsChild (arena : Arena S) (place : ℕ × Bool) (index : ℕ) : Prop :=
  ∃ branch, arena.nodes[place.1]? = some (.branch branch) ∧ branch.child place.2 = index

/-- The position that is reached along a way, unless the way leads out of the list or goes on behind
a leaf. -/
def follow (arena : Arena S) : (start : ℕ) → Bits → Option ℕ
  | start, [] => if start < arena.nodes.length then some start else none
  | start, bit :: way =>
    match arena.nodes[start]? with
    | some (.branch branch) => arena.follow (branch.child bit) way
    | _ => none

/-- The lengths of the ways from the root to leaves. -/
def leafDepths (arena : Arena S) : Set ℕ :=
  {depth | ∃ way index content, arena.follow arena.root way = some index ∧
    arena.nodes[index]? = some (.leaf content) ∧ way.length = depth}

/-- The nodes hang together as one tree: each node other than the root has one parent, and one way
leads from the root to each node. -/
structure IsRooted (arena : Arena S) : Prop where
  parent_unique : ∀ index < arena.nodes.length, index ≠ arena.root →
    ∃! place, arena.IsChild place index
  child_ne_root : ∀ place index, arena.IsChild place index →
    index < arena.nodes.length ∧ index ≠ arena.root
  way_unique : ∀ index < arena.nodes.length, ∃! way, arena.follow arena.root way = some index

/-- The weight of each inner node is that of the leaves that can be reached from it, each counted
once, as far as weights go. -/
def IsWeighed (arena : Arena S) : Prop :=
  ∀ index branch, arena.nodes[index]? = some (.branch branch) →
    ∃ below : List (ℕ × Leaf S), (below.map (·.1)).Nodup ∧
      (∀ place content, (place, content) ∈ below ↔
        arena.nodes[place]? = some (.leaf content) ∧
          ∃ way, arena.follow index way = some place) ∧
      branch.weight.toNat = min (below.map (·.2.weight.toNat)).sum Weight.limit

end Arena

/-! ### Each node at its own position -/

/-- The entries of a tree are those of its nodes, in the order of a walk. -/
theorem entriesBefore_eq (tree : Tree S) (rest : List (ℕ × Entry S)) :
    tree.entriesBefore rest =
      tree.subtrees.map (fun other ↦ (other.position, other.entry)) ++ rest := by
  induction tree generalizing rest with
  | leaf position content => rfl
  | node position weight left right ihLeft ihRight =>
    rw [entriesBefore, ihRight, ihLeft, subtrees, List.map_cons, List.map_append,
      List.cons_append, List.append_assoc]
    rfl

theorem entriesBefore_nil (tree : Tree S) :
    tree.entriesBefore [] = tree.subtrees.map fun other ↦ (other.position, other.entry) := by
  rw [entriesBefore_eq, List.append_nil]

/-- The entries with their positions, in the order of the list. -/
def placed (tree : Tree S) : List (ℕ × Entry S) :=
  (tree.entriesBefore []).mergeSort fun first second ↦ first.1 ≤ second.1

theorem placed_perm (tree : Tree S) :
    tree.placed.Perm (tree.subtrees.map fun other ↦ (other.position, other.entry)) :=
  (List.mergeSort_perm _ _).trans (List.Perm.of_eq tree.entriesBefore_nil)

theorem nodes_perm (tree : Tree S) : tree.arena.nodes.Perm (tree.subtrees.map entry) := by
  have hperm := tree.placed_perm.map (·.2)
  rwa [List.map_map] at hperm

theorem length_nodes (tree : Tree S) : tree.arena.nodes.length = tree.positions.length := by
  rw [tree.nodes_perm.length_eq, positions, List.length_map, List.length_map]

variable {tree : Tree S}

/-- Sorting puts the positions from zero on in their own places. -/
theorem map_fst_placed (h : tree.IsNumbered) :
    tree.placed.map (·.1) = List.range tree.positions.length := by
  have hsorted : (tree.placed.map (·.1)).Pairwise (· ≤ ·) := by
    rw [List.pairwise_map]
    refine (List.pairwise_mergeSort (fun first second third hfirst hsecond ↦ ?_)
      (fun first second ↦ ?_) (tree.entriesBefore [])).imp fun hle ↦ of_decide_eq_true hle
    · exact decide_eq_true ((of_decide_eq_true hfirst).trans (of_decide_eq_true hsecond))
    · rw [Bool.or_eq_true, decide_eq_true_eq, decide_eq_true_eq]
      exact Nat.le_total first.1 second.1
  refine List.Perm.eq_of_pairwise' hsorted List.pairwise_le_range ?_
  refine (tree.placed_perm.map (·.1)).trans ?_
  rw [List.map_map]
  exact h

theorem fst_eq_of_getElem?_placed (h : tree.IsNumbered) {place : ℕ} {found : ℕ × Entry S}
    (hfound : tree.placed[place]? = some found) : found.1 = place := by
  have hget := congrArg (·[place]?) (map_fst_placed h)
  simp only [List.getElem?_map, hfound, Option.map_some] at hget
  obtain ⟨_, heq⟩ := List.getElem?_eq_some_iff.mp hget.symm
  rw [← heq, List.getElem_range]

/-- The node at a position of the list is the node of the tree that has this position. -/
theorem getElem?_nodes_iff (h : tree.IsNumbered) {index : ℕ} {content : Entry S} :
    tree.arena.nodes[index]? = some content ↔
      ∃ other ∈ tree.subtrees, other.position = index ∧ other.entry = content := by
  have hmem (found : ℕ × Entry S) : found ∈ tree.placed ↔
      ∃ other ∈ tree.subtrees, (other.position, other.entry) = found := by
    rw [tree.placed_perm.mem_iff, List.mem_map]
  change (tree.placed.map (·.2))[index]? = some content ↔ _
  rw [List.getElem?_map, Option.map_eq_some_iff]
  constructor
  · rintro ⟨found, hfound, rfl⟩
    obtain ⟨other, hother, heq⟩ := (hmem found).mp (List.mem_of_getElem? hfound)
    rw [← fst_eq_of_getElem?_placed h hfound, ← heq]
    exact ⟨other, hother, rfl, rfl⟩
  · rintro ⟨other, hother, rfl, rfl⟩
    obtain ⟨place, hfound⟩ := List.mem_iff_getElem?.mp ((hmem _).mpr ⟨other, hother, rfl⟩)
    exact ⟨_, fst_eq_of_getElem?_placed h hfound ▸ hfound, rfl⟩

theorem getElem?_nodes_position (h : tree.IsNumbered) {other : Tree S}
    (hother : other ∈ tree.subtrees) : tree.arena.nodes[other.position]? = some other.entry :=
  (getElem?_nodes_iff h).mpr ⟨other, hother, rfl, rfl⟩

theorem exists_subtree_of_lt (h : tree.IsNumbered) {index : ℕ}
    (hindex : index < tree.arena.nodes.length) :
    ∃ way other, tree.subtree? way = some other ∧ other.position = index := by
  obtain ⟨other, hother, hposition, _⟩ :=
    (getElem?_nodes_iff h).mp (List.getElem?_eq_getElem hindex)
  obtain ⟨way, hway⟩ := mem_subtrees_iff.mp hother
  exact ⟨way, other, hway, hposition⟩

theorem entry_eq_leaf_iff {other : Tree S} {content : Leaf S} :
    other.entry = .leaf content ↔ other = leaf other.position content := by
  cases other <;> simp [entry, Tree.position]

/-- The node at a position is a leaf if the tree has this leaf there. -/
theorem getElem?_nodes_eq_leaf_iff (h : tree.IsNumbered) {other : Tree S} {way : Bits}
    (hway : tree.subtree? way = some other) {content : Leaf S} :
    tree.arena.nodes[other.position]? = some (.leaf content) ↔
      tree.subtree? way = some (leaf other.position content) := by
  rw [getElem?_nodes_position h (mem_subtrees_iff.mpr ⟨way, hway⟩), Option.some.injEq,
    entry_eq_leaf_iff, hway, Option.some.injEq]

/-! ### One tree -/

/-- The inner node at the end of a way has its children where one more bit leads. -/
theorem isChild_iff (h : tree.IsNumbered) {place index : ℕ} {bit : Bool} :
    tree.arena.IsChild (place, bit) index ↔
      ∃ way parent child, tree.subtree? way = some parent ∧ parent.position = place ∧
        tree.subtree? (way ++ [bit]) = some child ∧ child.position = index := by
  constructor
  · rintro ⟨branch, hbranch, hchild⟩
    obtain ⟨parent, hparent, hposition, hentry⟩ := (getElem?_nodes_iff h).mp hbranch
    obtain ⟨way, hway⟩ := mem_subtrees_iff.mp hparent
    cases parent with
    | leaf position content => cases hentry
    | node position weight left right =>
      cases hentry
      exact ⟨way, _, _, hway, hposition, subtree?_concat hway bit,
        (child_branch weight left right bit).symm.trans hchild⟩
  · rintro ⟨way, parent, child, hway, rfl, hchild, rfl⟩
    have hnode := getElem?_nodes_position h (mem_subtrees_iff.mpr ⟨way, hway⟩)
    cases parent with
    | leaf position content =>
      rw [subtree?_append, hway] at hchild
      cases hchild
    | node position weight left right =>
      rw [subtree?_concat hway, Option.some.injEq] at hchild
      exact ⟨_, hnode, hchild ▸ child_branch weight left right bit⟩

/-- Following children in the list is following the tree. -/
theorem follow_position (h : tree.IsNumbered) {start : Tree S} (hstart : start ∈ tree.subtrees)
    (way : Bits) : tree.arena.follow start.position way = (start.subtree? way).map position := by
  have hnode := getElem?_nodes_position h hstart
  induction way generalizing start with
  | nil =>
    rw [Arena.follow, if_pos (List.getElem?_eq_some_iff.mp hnode).1, subtree?_nil, Option.map_some]
  | cons bit way ih =>
    rw [Arena.follow, hnode]
    cases start with
    | leaf position content => rfl
    | node position weight left right =>
      have hbelow := child_mem_subtrees hstart bit
      rw [subtree?_cons, ← ih hbelow (getElem?_nodes_position h hbelow),
        ← child_branch weight left right bit]
      rfl

theorem follow_root (h : tree.IsNumbered) (way : Bits) :
    tree.arena.follow tree.arena.root way = (tree.subtree? way).map position :=
  follow_position h tree.self_mem_subtrees way

/-- The list of nodes of a numbered tree hangs together as one tree. -/
theorem isRooted_arena (h : tree.IsNumbered) : tree.arena.IsRooted where
  parent_unique := by
    intro index hindex hroot
    obtain ⟨way, child, hchild, rfl⟩ := exists_subtree_of_lt h hindex
    obtain rfl | ⟨before, bit, rfl⟩ := way.eq_nil_or_concat
    · rw [subtree?_nil, Option.some.injEq] at hchild
      exact absurd (congrArg position hchild.symm) hroot
    rw [List.concat_eq_append] at hchild
    have hparent := hchild
    rw [subtree?_append, Option.bind_eq_some_iff] at hparent
    obtain ⟨parent, hparent, _⟩ := hparent
    refine ⟨(parent.position, bit),
      (isChild_iff h).mpr ⟨before, parent, child, hparent, rfl, hchild, rfl⟩, ?_⟩
    rintro ⟨place, side⟩ hother
    obtain ⟨way, other, found, hway, rfl, hfound, hposition⟩ := (isChild_iff h).mp hother
    have heq := way_eq_of_position_eq h.nodup hfound hchild hposition
    obtain ⟨rfl, hside⟩ := List.append_inj' heq rfl
    rw [hway, Option.some.injEq] at hparent
    rw [hparent, List.singleton_inj.mp hside]
  child_ne_root := by
    rintro ⟨place, bit⟩ index hchild
    obtain ⟨way, parent, child, _, _, hway, rfl⟩ := (isChild_iff h).mp hchild
    have hnode := getElem?_nodes_position h (mem_subtrees_iff.mpr ⟨_, hway⟩)
    refine ⟨(List.getElem?_eq_some_iff.mp hnode).1, fun hroot ↦ ?_⟩
    have hnil := way_eq_of_position_eq h.nodup hway tree.subtree?_nil hroot
    exact absurd hnil (by simp)
  way_unique := by
    intro index hindex
    obtain ⟨way, other, hother, rfl⟩ := exists_subtree_of_lt h hindex
    refine ⟨way, by simp only [follow_root h, hother, Option.map_some], fun second hsecond ↦ ?_⟩
    simp only [follow_root h, Option.map_eq_some_iff] at hsecond
    obtain ⟨found, hfound, hposition⟩ := hsecond
    exact way_eq_of_position_eq h.nodup hfound hother hposition

/-! ### Leaves, weights and lengths -/

theorem filterMap_leaf?_subtrees (tree : Tree S) :
    tree.subtrees.filterMap (fun other ↦ other.entry.leaf?) = tree.contents := by
  induction tree with
  | leaf position content => rfl
  | node position weight left right ihLeft ihRight =>
    rw [subtrees, contents_node, ← ihLeft, ← ihRight, ← List.filterMap_append]
    rfl

/-- The list has the leaves of the tree. -/
theorem leaves_arena_perm (tree : Tree S) : tree.arena.leaves.Perm tree.contents := by
  have hperm := tree.nodes_perm.filterMap Entry.leaf?
  rwa [List.filterMap_map, Function.comp_def, filterMap_leaf?_subtrees] at hperm

/-- The leaves, each with its position. -/
def leafPlaces : Tree S → List (ℕ × Leaf S)
  | leaf position content => [(position, content)]
  | node _ _ left right => left.leafPlaces ++ right.leafPlaces

theorem map_snd_leafPlaces (tree : Tree S) : tree.leafPlaces.map (·.2) = tree.contents := by
  induction tree with
  | leaf position content => rfl
  | node position weight left right ihLeft ihRight =>
    rw [leafPlaces, List.map_append, ihLeft, ihRight, contents_node]

theorem map_fst_leafPlaces_sublist (tree : Tree S) :
    (tree.leafPlaces.map (·.1)).Sublist tree.positions := by
  induction tree with
  | leaf position content => exact List.Sublist.refl _
  | node position weight left right ihLeft ihRight =>
    rw [leafPlaces, List.map_append, positions_node]
    exact (ihLeft.append ihRight).cons _

theorem mem_leafPlaces_iff {place : ℕ} {content : Leaf S} : (place, content) ∈ tree.leafPlaces ↔
    ∃ way, tree.subtree? way = some (leaf place content) := by
  rw [← mem_subtrees_iff]
  induction tree with
  | leaf position other => simp [leafPlaces, subtrees]
  | node position weight left right ihLeft ihRight =>
    simp [leafPlaces, subtrees, ihLeft, ihRight]

theorem positions_sublist {other : Tree S} (h : other ∈ tree.subtrees) :
    other.positions.Sublist tree.positions := by
  induction tree with
  | leaf position content =>
    rw [List.mem_singleton.mp h]
  | node position weight left right ihLeft ihRight =>
    rw [subtrees, List.mem_cons, List.mem_append] at h
    rw [positions_node]
    rcases h with rfl | hleft | hright
    · rw [positions_node]
    · exact ((ihLeft hleft).trans (List.sublist_append_left _ _)).cons _
    · exact ((ihRight hright).trans (List.sublist_append_right _ _)).cons _

/-- Each inner node in the list has the weight of the leaves that can be reached from it. -/
theorem isWeighed_arena (h : tree.IsNumbered) (hweighed : tree.IsWeighed) :
    tree.arena.IsWeighed := by
  intro index branch hbranch
  obtain ⟨other, hother, rfl, hentry⟩ := (getElem?_nodes_iff h).mp hbranch
  obtain ⟨before, hbefore⟩ := mem_subtrees_iff.mp hother
  refine ⟨other.leafPlaces, ?_, fun place content ↦ ?_, ?_⟩
  · exact h.nodup.sublist (other.map_fst_leafPlaces_sublist.trans (positions_sublist hother))
  · rw [mem_leafPlaces_iff]
    constructor
    · rintro ⟨way, hway⟩
      refine ⟨getElem?_nodes_position h (mem_subtrees_trans hother
        (mem_subtrees_iff.mpr ⟨way, hway⟩)), way, ?_⟩
      rw [follow_position h hother, hway]
      rfl
    · rintro ⟨hleaf, way, hway⟩
      rw [follow_position h hother, Option.map_eq_some_iff] at hway
      obtain ⟨found, hfound, rfl⟩ := hway
      have hend : tree.subtree? (before ++ way) = some found := by
        rw [subtree?_append, hbefore]
        exact hfound
      rw [getElem?_nodes_eq_leaf_iff h hend, hend] at hleaf
      exact ⟨way, hfound.trans hleaf⟩
  · have hmass : (other.leafPlaces.map (·.2.weight.toNat)).sum = other.mass := by
      rw [mass, ← map_snd_leafPlaces, List.map_map]
      rfl
    have hweight : branch.weight = other.weight := by
      cases other with
      | leaf position content => cases hentry
      | node position weight left right =>
        cases hentry
        rfl
    rw [hweight, (hweighed.of_mem_subtrees hother).toNat_weight, hmass]

/-- The ways to leaves in the list are as long as the leaves of the tree are deep. -/
theorem leafDepths_arena (h : tree.IsNumbered) :
    tree.arena.leafDepths = {depth | depth ∈ tree.depths} := by
  ext depth
  change _ ↔ depth ∈ tree.depths
  rw [depths_eq_paths, List.mem_map]
  constructor
  · rintro ⟨way, index, content, hway, hleaf, rfl⟩
    rw [follow_root h, Option.map_eq_some_iff] at hway
    obtain ⟨other, hother, rfl⟩ := hway
    rw [getElem?_nodes_eq_leaf_iff h hother] at hleaf
    exact ⟨(content, way), mem_paths_iff.mpr ⟨_, hleaf⟩, rfl⟩
  · rintro ⟨⟨content, way⟩, hmem, rfl⟩
    obtain ⟨place, hplace⟩ := mem_paths_iff.mp hmem
    refine ⟨way, place, content, ?_, ?_, rfl⟩
    · rw [follow_root h, hplace]
      rfl
    · exact getElem?_nodes_position h (mem_subtrees_iff.mpr ⟨way, hplace⟩)

/-! ### The list of nodes of a tree that was built -/

variable [Symbol S] {frequencies : Frequencies S} {config : TableConfig}

/-- A list of nodes is the tree of counts under a configuration: it has one leaf for each token and
one inner node less, and each inner node has the weight of the leaves below it. -/
structure Arena.Represents (arena : Arena S) (frequencies : Frequencies S) (config : TableConfig) :
    Prop where
  size_eq : arena.nodes.length = 2 * tokenCount frequencies config - 1
  leafCount_eq : arena.leafCount = tokenCount frequencies config
  nodup_tokens : (arena.leaves.map (·.token)).Nodup
  mem_leaves_iff : ∀ content, content ∈ arena.leaves ↔ content.BelongsTo frequencies config
  isRooted : arena.IsRooted
  isWeighed : arena.IsWeighed
  longest_isGreatest : 2 ≤ tokenCount frequencies config →
    IsGreatest arena.leafDepths arena.longest.toNat
  longest_eq_one : tokenCount frequencies config = 1 → arena.longest = 1

/-- The list of nodes of every tree that was built is a tree with a leaf for each token, whether the
tree was merged or rebuilt within a bound: no node is lost, none is there twice and none hangs at
two places. -/
theorem arena_represents_of_build (h : (build frequencies config).unheard = .ok tree) :
    tree.arena.Represents frequencies config := by
  obtain ⟨hnumbered, hweighed⟩ := isNumbered_of_build h
  have hcount := leafCount_of_build h
  have hleaves : tree.arena.leaves.Perm (alphabet frequencies config) :=
    tree.leaves_arena_perm.trans (isTreeWithin_of_build h).contents_perm
  have hlongest : tree.arena.longest.toNat = tree.longest := by
    have hroom := longest_le_of_build h
    exact UInt8.toNat_ofNat_of_lt' (hroom.trans_lt (by decide))
  refine ⟨?_, hcount, ?_, fun content ↦ ?_, isRooted_arena hnumbered,
    isWeighed_arena hnumbered hweighed, fun htwo ↦ ?_, fun hone ↦ ?_⟩
  · have hnodes := tree.length_positions
    rw [length_nodes]
    omega
  · exact (hleaves.map (·.token)).nodup_iff.mpr (nodup_alphabet frequencies config)
  · rw [hleaves.mem_iff, mem_alphabet_iff]
  · have hinner : tree.isLeaf = false := by
      rw [Bool.eq_false_iff]
      intro hleaf
      have hone := leafCount_eq_one_iff.mpr hleaf
      omega
    have hpos := pos_of_mem_depths hinner tree.depth_mem_depths
    rw [leafDepths_arena hnumbered, hlongest, longest, Nat.max_eq_right hpos]
    exact ⟨tree.depth_mem_depths, fun depth hdepth ↦ le_depth_of_mem_depths hdepth⟩
  · have hleaf := leafCount_eq_one_iff.mp (hcount.trans hone)
    refine UInt8.toNat_inj.mp ?_
    rw [hlongest]
    cases tree with
    | leaf position content => rfl
    | node position weight left right => cases hleaf

/-- The tree of four letters that is rebuilt for a bound of two bits has seven nodes, and so has the
merged one for a bound of three; a lone letter has one. -/
theorem arena_represents_of_four_letters :
    let frequencies := (((Frequencies.empty.add 'a' 1).add 'b' 1).add 'c' 2).add 'd' 4
    (∀ bound ∈ [2, 3], ∃ tree : Tree Char,
      (build frequencies ⟨bound, 2, false, 0⟩).unheard = .ok tree ∧
      tree.arena.Represents frequencies ⟨bound, 2, false, 0⟩ ∧ tree.arena.nodes.length = 7) ∧
    ∃ tree : Tree Char, (build (Frequencies.empty.add 'a' 1) .strict).unheard = .ok tree ∧
      tree.arena.Represents (Frequencies.empty.add 'a' 1) .strict ∧
      tree.arena.nodes.length = 1 := by
  intro frequencies
  constructor
  · intro bound hbound
    have htokens : tokenCount frequencies ⟨bound, 2, false, 0⟩ = 4 := by
      rcases List.mem_pair.mp hbound with rfl | rfl <;> decide +kernel
    have hcodable : IsCodable frequencies ⟨bound, 2, false, 0⟩ := by
      rcases List.mem_pair.mp hbound with rfl | rfl <;>
        exact isCodable_iff.mpr ⟨by decide, by decide +kernel, by decide +kernel⟩
    obtain ⟨tree, htree, _⟩ := hcodable.exists_build
    have hrepresents := arena_represents_of_build htree
    exact ⟨tree, htree, hrepresents, by rw [hrepresents.size_eq, htokens]⟩
  · have htree : (build (Frequencies.empty.add 'a' 1) .strict).unheard =
        .ok (leaf 0 ⟨.symbol 'a', 1⟩) := rfl
    have hrepresents := arena_represents_of_build htree
    exact ⟨_, htree, hrepresents, hrepresents.size_eq⟩

end HuffmanCoding.Tree
