import HuffmanCoding.Proofs.Tree.Hanging

/-!
# Summing up weights in a list of nodes

When all nodes of a tree are there, a walk sums up the weights below each inner node and records the
sums (`sumWeights`). The walk below a node changes nothing elsewhere (`IsSummed`), so the walks
below two children do not disturb each other (`IsSummed.join`), and in the end there is the list of
nodes of the tree (`sumWeights_grown`).
-/

set_option autoImplicit false
set_option relaxedAutoImplicit false

namespace HuffmanCoding.Tree

variable {S : Type}

/-- After a change the entries below a node are those of the tree, and the other ones are as they
were before. -/
structure IsSummed (here : Tree S) (nodes after : List (Entry S)) : Prop where
  entries : ∀ other ∈ here.subtrees, after[other.position]? = some other.entry
  frame : ∀ index ∉ here.positions, after[index]? = nodes[index]?

/-- A change on the left, one on the right and the weight of the root come to a change of the whole
subtree: none of them touches what another one has changed. -/
theorem IsSummed.join {position : ℕ} {weight : Weight} {left right : Tree S}
    {nodes middle last : List (Entry S)}
    (hnodup : (node position weight left right).positions.Nodup)
    (hleft : left.IsSummed nodes middle) (hright : right.IsSummed middle last)
    (hroot : nodes[position]? = some (.branch ⟨left.position, right.position, 0⟩)) :
    (node position weight left right).IsSummed nodes
      (last.modify position (Entry.reweighed weight)) := by
  rw [positions_node, List.nodup_cons, List.mem_append, not_or, List.nodup_append] at hnodup
  obtain ⟨⟨hrootLeft, hrootRight⟩, _, _, hdisjoint⟩ := hnodup
  have hframe {index : ℕ} (hindex : index ≠ position) :
      (last.modify position (Entry.reweighed weight))[index]? = last[index]? :=
    List.getElem?_modify_ne _ _ hindex.symm
  refine ⟨?_, fun index hindex ↦ ?_⟩
  · rw [subtrees, List.forall_mem_cons, List.forall_mem_append]
    refine ⟨?_, fun other hother ↦ ?_, fun other hother ↦ ?_⟩
    · rw [Tree.position, List.getElem?_modify_eq, hright.frame _ hrootRight,
        hleft.frame _ hrootLeft, hroot]
      rfl
    · have hmem : other.position ∈ left.positions := List.mem_map_of_mem hother
      rw [hframe (ne_of_mem_of_not_mem hmem hrootLeft),
        hright.frame _ fun hbehind ↦ hdisjoint _ hmem _ hbehind rfl]
      exact hleft.entries other hother
    · have hmem : other.position ∈ right.positions := List.mem_map_of_mem hother
      rw [hframe (ne_of_mem_of_not_mem hmem hrootRight)]
      exact hright.entries other hother
  · rw [positions_node, List.mem_cons, List.mem_append, not_or, not_or] at hindex
    rw [hframe hindex.1, hright.frame _ hindex.2.2, hleft.frame _ hindex.2.1]

/-- Summing up the weights below a node makes the entries below it those of the tree. -/
theorem sumWeights_position {here : Tree S} (hnodup : here.positions.Nodup)
    (hweighed : here.IsWeighed) {size : ℕ} (hsize : ∀ position ∈ here.positions, position < size)
    {levels : ℕ} (hlevels : here.depth < levels) {nodes : List (Entry S)}
    (hnodes : ∀ other ∈ here.subtrees, nodes[other.position]? = some (other.entry.upTo size)) :
    ∃ after, sumWeights levels here.position nodes = some (here.weight, after) ∧
      here.IsSummed nodes after := by
  induction here generalizing levels nodes with
  | leaf position content =>
    obtain ⟨levels, rfl⟩ := Nat.exists_eq_add_one_of_ne_zero hlevels.ne_bot
    have hnode := hnodes (leaf position content) (by simp [subtrees])
    refine ⟨nodes, ?_, fun other hother ↦ ?_, fun _ _ ↦ rfl⟩
    · rw [sumWeights, hnode]
      rfl
    · rw [List.mem_singleton.mp hother]
      exact hnode
  | node position weight left right ihLeft ihRight =>
    obtain ⟨levels, rfl⟩ := Nat.exists_eq_add_one_of_ne_zero hlevels.ne_bot
    obtain ⟨hweight, hleftWeighed, hrightWeighed⟩ := hweighed
    have hparts := hnodup
    rw [positions_node, List.nodup_cons, List.nodup_append] at hparts
    obtain ⟨_, hleftNodup, hrightNodup, hdisjoint⟩ := hparts
    rw [positions_node, List.forall_mem_cons, List.forall_mem_append] at hsize
    obtain ⟨_, hleftSize, hrightSize⟩ := hsize
    rw [subtrees, List.forall_mem_cons, List.forall_mem_append] at hnodes
    obtain ⟨hroot, hleftNodes, hrightNodes⟩ := hnodes
    rw [depth] at hlevels
    obtain ⟨middle, hleftSum, hleft⟩ :=
      ihLeft hleftNodup hleftWeighed hleftSize (by omega : left.depth < levels) hleftNodes
    have hrightMiddle (other : Tree S) (hother : other ∈ right.subtrees) :
        middle[other.position]? = some (other.entry.upTo size) := by
      have hmem : other.position ∈ right.positions := List.mem_map_of_mem hother
      rw [hleft.frame _ fun hbefore ↦ hdisjoint _ hbefore _ hmem rfl]
      exact hrightNodes other hother
    obtain ⟨last, hrightSum, hright⟩ :=
      ihRight hrightNodup hrightWeighed hrightSize (by omega : right.depth < levels) hrightMiddle
    have hbranch : nodes[position]? = some (.branch ⟨left.position, right.position, 0⟩) := by
      have hleftLt := hleftSize left.position (List.mem_map_of_mem left.self_mem_subtrees)
      have hrightLt := hrightSize right.position (List.mem_map_of_mem right.self_mem_subtrees)
      rw [Tree.position] at hroot
      rw [hroot, entry, Entry.upTo, Branch.upTo, slotUpTo, slotUpTo, if_pos hleftLt,
        if_pos hrightLt]
    refine ⟨_, ?_, hleft.join hnodup hright hbranch⟩
    rw [Tree.position, sumWeights, hbranch]
    simp only [hleftSum, hrightSum, Option.bind_eq_bind, Option.bind_some, Tree.weight, hweight]
    rfl

theorem depth_lt_length_positions (tree : Tree S) : tree.depth < tree.positions.length := by
  induction tree with
  | leaf position content => exact Nat.one_pos
  | node position weight left right ihLeft ihRight =>
    rw [positions_node, List.length_cons, List.length_append, depth]
    omega

/-- Summing up the weights of all nodes of a tree yields the list of its nodes. -/
theorem sumWeights_grown {tree : Tree S} (h : tree.IsInOrder) (hweighed : tree.IsWeighed) :
    sumWeights tree.positions.length 0 (tree.grown tree.positions.length) =
      some (tree.weight, tree.arena.nodes) := by
  obtain ⟨after, hsum, hsummed⟩ := sumWeights_position h.isNumbered.nodup hweighed
    (fun position hposition ↦ by rwa [h, List.mem_range] at hposition)
    tree.depth_lt_length_positions
    (fun other hother ↦ getElem?_grown_position h.isNumbered hother (h.position_lt hother))
  rw [h.position_eq_zero] at hsum
  rw [hsum]
  congr 2
  refine List.ext_getElem? fun index ↦ ?_
  by_cases hindex : index ∈ tree.positions
  · obtain ⟨other, hother, rfl⟩ := List.mem_map.mp hindex
    rw [hsummed.entries other hother, getElem?_nodes_position h.isNumbered hother]
  · have hbehind : tree.positions.length ≤ index := by
      rwa [h, List.mem_range, not_lt] at hindex
    rw [hsummed.frame index hindex, getElem?_grown, if_neg hbehind.not_gt,
      List.getElem?_eq_none (tree.length_nodes.le.trans hbehind)]

end HuffmanCoding.Tree
