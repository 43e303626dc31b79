import HuffmanCoding.Proofs.Tree.Paths
import HuffmanCoding.Tree.Canonical

/-!
# Trees from lengths in order

Filling a subtree takes leaves from the front of the list, and these are the leaves of the subtree
at their depths (`eq_append_of_fill`). It succeeds as soon as the lengths are in order and the
codewords take up the subtree (`exists_fill`). So a list in order whose Kraft sum is one has a tree,
and its leaves are the list (`exists_ofLengths`).
-/

set_option autoImplicit false
set_option relaxedAutoImplicit false

namespace HuffmanCoding.Tree

variable {S : Type}

/-- The leaves of a tree below some edges take up what the codeword of its root takes up. -/
theorem kraftSum_leavesBelow (tree : Tree S) (above : ℕ) :
    kraftSum ((tree.leavesBelow above).map (·.2)) = kraftShare above := by
  induction tree generalizing above with
  | leaf position content => simp [leavesBelow]
  | node position weight left right ihLeft ihRight =>
    rw [leavesBelow, List.map_append, kraftSum_append, ihLeft, ihRight, kraftShare_eq_two_mul above]
    ring

/-- A subtree that was filled is a leaf from the front of the list, or it has two children that were
filled one after the other. -/
theorem fill_cases {levels depth next after : ℕ} {assigned rest : List (Leaf S × ℕ)}
    {tree : Tree S} (h : fill levels depth next assigned = some (tree, after, rest)) :
    (∃ content, tree = leaf next content ∧ after = next + 1 ∧
      assigned = (content, depth) :: rest) ∨
    ∃ below left right middle behind, levels = below + 1 ∧
      fill below (depth + 1) (next + 1) assigned = some (left, middle, behind) ∧
      fill below (depth + 1) middle behind = some (right, after, rest) ∧
      tree = join next left right := by
  cases assigned with
  | nil => cases levels <;> simp [fill] at h
  | cons entry others =>
    obtain ⟨content, length⟩ := entry
    by_cases hlength : length = depth
    · subst hlength
      have hleaf : some (leaf next content, next + 1, others) = some (tree, after, rest) := by
        cases levels <;> simpa [fill] using h
      cases hleaf
      exact Or.inl ⟨content, rfl, rfl, rfl⟩
    · cases levels with
      | zero => simp [fill, hlength] at h
      | succ below =>
        rw [fill, if_neg hlength] at h
        simp only [Option.bind_eq_bind, Option.bind_eq_some_iff, Prod.exists] at h
        obtain ⟨left, middle, behind, hleft, right, last, final, hright, heq⟩ := h
        cases heq
        exact Or.inr ⟨below, left, right, middle, behind, rfl, hleft, hright, rfl⟩

/-- A filled subtree has its leaves from the front of the list. -/
theorem eq_append_of_fill {levels depth next after : ℕ} {assigned rest : List (Leaf S × ℕ)}
    {tree : Tree S} (h : fill levels depth next assigned = some (tree, after, rest)) :
    assigned = tree.leavesBelow depth ++ rest := by
  induction levels generalizing depth next after assigned rest tree with
  | zero =>
    obtain ⟨content, rfl, _, rfl⟩ | ⟨_, _, _, _, _, hlevels, _⟩ := fill_cases h
    · rfl
    · cases hlevels
  | succ levels ih =>
    obtain ⟨content, rfl, _, rfl⟩ | ⟨_, left, right, middle, behind, hlevels, hleft, hright, rfl⟩ :=
      fill_cases h
    · rfl
    · cases hlevels
      rw [ih hleft, ih hright, join, leavesBelow, List.append_assoc]

/-- A subtree can be filled from a list in order if the codewords take up at least its root. -/
theorem exists_fill {levels depth : ℕ} (next : ℕ) {assigned : List (Leaf S × ℕ)}
    (hsorted : (assigned.map (·.2)).Pairwise (· ≤ ·))
    (hlow : ∀ length ∈ assigned.map (·.2), depth ≤ length)
    (hhigh : ∀ length ∈ assigned.map (·.2), length ≤ depth + levels)
    (hsum : kraftShare depth ≤ kraftSum (assigned.map (·.2))) :
    ∃ tree after rest, fill levels depth next assigned = some (tree, after, rest) := by
  induction levels generalizing depth next assigned with
  | zero =>
    cases assigned with
    | nil => exact absurd hsum (not_le.mpr (kraftShare_pos depth))
    | cons entry others =>
      obtain ⟨content, length⟩ := entry
      have hlength : length = depth :=
        le_antisymm (hhigh length (by simp)) (hlow length (by simp))
      exact ⟨leaf next content, next + 1, others, by rw [fill, if_pos hlength]⟩
  | succ levels ih =>
    cases assigned with
    | nil => exact absurd hsum (not_le.mpr (kraftShare_pos depth))
    | cons entry others =>
      obtain ⟨content, length⟩ := entry
      by_cases hlength : length = depth
      · exact ⟨leaf next content, next + 1, others, by rw [fill, if_pos hlength]⟩
      · have hdeeper : ∀ other ∈ ((content, length) :: others).map (·.2), depth + 1 ≤ other := by
          intro other hother
          have hfirst : depth < length := lt_of_le_of_ne (hlow length (by simp)) (Ne.symm hlength)
          rcases List.mem_cons.mp hother with rfl | hbehind
          · exact hfirst
          · exact hfirst.trans_le (List.rel_of_pairwise_cons hsorted hbehind)
        have hshallow (other : ℕ) (hother : other ∈ ((content, length) :: others).map (·.2)) :
            other ≤ depth + 1 + levels := by
          have := hhigh other hother
          omega
        have hhalf := kraftShare_eq_two_mul depth
        have hpos := kraftShare_pos (depth + 1)
        obtain ⟨left, middle, behind, hleft⟩ :=
          ih (next + 1) hsorted hdeeper hshallow (by linarith)
        have htaken := eq_append_of_fill hleft
        rw [htaken, List.map_append] at hsorted hsum hdeeper hshallow
        have hrest : kraftShare (depth + 1) ≤ kraftSum (behind.map (·.2)) := by
          rw [kraftSum_append, kraftSum_leavesBelow] at hsum
          linarith
        obtain ⟨right, last, final, hright⟩ := ih middle
          (List.pairwise_append.mp hsorted).2.1
          (fun other hother ↦ hdeeper other (List.mem_append_right _ hother))
          (fun other hother ↦ hshallow other (List.mem_append_right _ hother)) hrest
        refine ⟨join next left right, last, final, ?_⟩
        rw [fill, if_neg hlength]
        simp [hleft, hright]

theorem le_getLastD {lengths : List ℕ} (hsorted : lengths.Pairwise (· ≤ ·)) {length : ℕ}
    (h : length ∈ lengths) : length ≤ lengths.getLastD 0 := by
  induction lengths using List.reverseRecOn with
  | nil => simp at h
  | append_singleton lengths last _ =>
    rw [List.getLastD_concat]
    rcases List.mem_append.mp h with hinside | hlast
    · exact (List.pairwise_append.mp hsorted).2.2 length hinside last (by simp)
    · exact (List.mem_singleton.mp hlast).le

/-- Where depths are in order, the last leaf is the deepest. -/
theorem depth_eq_getLastD {tree : Tree S} (hsorted : tree.depths.Pairwise (· ≤ ·)) :
    tree.depth = tree.depths.getLastD 0 := by
  refine le_antisymm (le_getLastD hsorted tree.depth_mem_depths) ?_
  rcases List.mem_cons.mp (List.getLastD_mem_cons (l := tree.depths) (a := 0)) with hzero | hdepth
  · exact hzero.le.trans (Nat.zero_le _)
  · exact le_depth_of_mem_depths hdepth

/-- A tree that was made from lengths was filled from all of them. -/
theorem fill_of_ofLengths {assigned : List (Leaf S × ℕ)} {tree : Tree S}
    (h : ofLengths assigned = .ok tree) :
    ∃ after, fill ((assigned.map (·.2)).getLastD 0) 0 0 assigned = some (tree, after, []) := by
  simp only [ofLengths] at h
  split at h
  · simp at h
  · rename_i filled after hfill
    cases h
    exact ⟨after, hfill⟩
  · split at h <;> simp at h

/-- A tree that was made from lengths has them. -/
theorem leaves_of_ofLengths {assigned : List (Leaf S × ℕ)} {tree : Tree S}
    (h : ofLengths assigned = .ok tree) : tree.leaves = assigned := by
  obtain ⟨after, hfill⟩ := fill_of_ofLengths h
  have hleaves := eq_append_of_fill hfill
  rw [List.append_nil] at hleaves
  exact hleaves.symm

/-- Lengths in order whose codewords take up all bit sequences have a tree. -/
theorem exists_ofLengths (assigned : List (Leaf S × ℕ))
    (hsorted : (assigned.map (·.2)).Pairwise (· ≤ ·))
    (hsum : kraftSum (assigned.map (·.2)) = 1) : ∃ tree, ofLengths assigned = .ok tree := by
  have hhigh (length : ℕ) (hlength : length ∈ assigned.map (·.2)) :
      length ≤ 0 + (assigned.map (·.2)).getLastD 0 := by
    rw [Nat.zero_add]
    exact le_getLastD hsorted hlength
  obtain ⟨tree, after, rest, hfill⟩ := exists_fill 0 hsorted (fun _ _ ↦ Nat.zero_le _)
    hhigh (by rw [hsum, kraftShare_zero])
  have hnothing : kraftSum (rest.map (·.2)) = 0 := by
    rw [eq_append_of_fill hfill, List.map_append, kraftSum_append, kraftSum_leavesBelow,
      kraftShare_zero] at hsum
    linarith
  have hnil : rest = [] := List.map_eq_nil_iff.mp (kraftSum_eq_zero_iff.mp hnothing)
  subst hnil
  exact ⟨tree, by simp only [ofLengths, hfill]⟩

end HuffmanCoding.Tree
