import HuffmanCoding.Proofs.Tree.ConsecutiveWays
import HuffmanCoding.Proofs.Tree.NodeSums

/-!
# Lists of nodes from lengths

A list in order leaves room, fills a tree, or goes on behind the leaves of a tree
(`ofLengths_cases`). In the first case the run on nodes ends with a vacant slot, since others could
still be hung (`hangFromRoot_of_room`), and in the second one with all nodes
(`hangFromRoot_of_leaves`). In the third one the next number has a digit too many, and zeros are
left of it. They lead to the first leaf, so the leaf is refused (`hangFromRoot_of_excess`). The run
thus comes to the nodes of the tree that is filled from the same list (`Arena.ofLengths_eq`).
-/

set_option autoImplicit false
set_option relaxedAutoImplicit false

namespace HuffmanCoding.Tree

variable {S : Type}

/-! ### Trees from lengths -/

/-- A whole tree that was filled has its nodes in the order of a walk. -/
theorem isInOrder_of_fill {levels after : ℕ} {assigned rest : List (Leaf S × ℕ)} {tree : Tree S}
    (h : fill levels 0 0 assigned = some (tree, after, rest)) : tree.IsInOrder :=
  (positions_of_fill h).1.trans List.range_eq_range'.symm

theorem isInOrder_of_ofLengths {assigned : List (Leaf S × ℕ)} {tree : Tree S}
    (h : ofLengths assigned = .ok tree) : tree.IsInOrder := by
  obtain ⟨after, hfill⟩ := fill_of_ofLengths h
  exact isInOrder_of_fill hfill

/-- A list in order has no tree if its codewords leave room, it has one if they leave none, and
otherwise it begins with the leaves of a tree. -/
theorem ofLengths_cases {assigned : List (Leaf S × ℕ)}
    (hsorted : (assigned.map (·.2)).Pairwise (· ≤ ·)) :
    (kraftSum (assigned.map (·.2)) < 1 ∧ ofLengths assigned = .error .incompleteCode) ∨
    (kraftSum (assigned.map (·.2)) = 1 ∧ ∃ tree : Tree S, ofLengths assigned = .ok tree) ∨
    1 < kraftSum (assigned.map (·.2)) ∧ ∃ (tree : Tree S) (content : Leaf S) (length : ℕ)
      (others : List (Leaf S × ℕ)), assigned = tree.leaves ++ (content, length) :: others ∧
        tree.IsInOrder ∧ ofLengths assigned = .error (.notPrefixFree
          (if length = (assigned.map (·.2)).headD 0 then "duplicate code path"
            else "code passes a leaf")) := by
  have hhigh (length : ℕ) (hlength : length ∈ assigned.map (·.2)) :
      length ≤ 0 + (assigned.map (·.2)).getLastD 0 := by
    rw [Nat.zero_add]
    exact le_getLastD hsorted hlength
  cases hfill : fill ((assigned.map (·.2)).getLastD 0) 0 0 assigned with
  | none =>
    refine Or.inl ⟨?_, by simp only [ofLengths, hfill]⟩
    by_contra hfull
    obtain ⟨tree, after, rest, hsome⟩ := exists_fill 0 hsorted (fun _ _ ↦ Nat.zero_le _) hhigh
      (by rw [kraftShare_zero]; exact not_lt.mp hfull)
    rw [hfill] at hsome
    cases hsome
  | some filled =>
    obtain ⟨tree, after, rest⟩ := filled
    have hleaves : assigned = tree.leaves ++ rest := eq_append_of_fill hfill
    have hsum : kraftSum (assigned.map (·.2)) = 1 + kraftSum (rest.map (·.2)) := by
      rw [hleaves, List.map_append, kraftSum_append, ← depths, kraftSum_depths]
    refine Or.inr ?_
    cases rest with
    | nil =>
      refine Or.inl ⟨?_, tree, by simp only [ofLengths, hfill]⟩
      rw [hsum, List.map_nil, kraftSum_nil, add_zero]
    | cons entry others =>
      obtain ⟨content, length⟩ := entry
      refine Or.inr ⟨?_, tree, content, length, others, hleaves, isInOrder_of_fill hfill, ?_⟩
      · have hpos := kraftShare_pos length
        have hnonneg := kraftSum_nonneg (others.map (·.2))
        rw [hsum, List.map_cons, kraftSum_cons]
        linarith
      · simp only [ofLengths, hfill]
        split_ifs <;> rfl

/-! ### Lists of nodes from lengths -/

/-- The number after one that fits into a short length fits into a word. -/
theorem succ_lt_size {number length : ℕ} (hlength : length ≤ TableConfig.longestLength)
    (hfits : number ≤ 2 ^ length) : number + 1 < UInt32.size := by
  have hpow : 2 ^ length ≤ 2 ^ TableConfig.longestLength := Nat.pow_le_pow_right (by decide) hlength
  exact (Nat.succ_le_succ (hfits.trans hpow)).trans_lt (by decide)

/-- Short lengths that do not decrease keep numbers in their range: the next way begins where the
last one ended. -/
theorem hangAll_cons {code : UInt32} {previous length number : ℕ} (hle : previous ≤ length)
    (hlength : length ≤ TableConfig.longestLength)
    (hnumber : number * kraftShare length = code.toNat * kraftShare previous)
    (hfits : number ≤ 2 ^ length) {content : Leaf S} (others : List (Leaf S × ℕ))
    {nodes : List (Entry S)} {outcome : Except Error (List (Entry S))}
    (hhang : hang content (Bits.ofNat length number) 0 nodes = some outcome) :
    hangAll code previous ((content, length) :: others) nodes =
      outcome.casesOn (fun error ↦ some (.error error))
        fun next ↦ hangAll (UInt32.ofNat (number + 1)) length others next := by
  have hshort : length ≤ 24 := hlength
  have hsmall := succ_lt_size hlength hfits
  have hamount : (UInt32.ofNat (length - previous)).toNat % 32 = length - previous := by
    rw [UInt32.toNat_ofNat_of_lt' (lt_of_le_of_lt (by omega : _ ≤ 24) (by decide)),
      Nat.mod_eq_of_lt (by omega)]
  have hshifted : (code <<< UInt32.ofNat (length - previous)).toNat = number := by
    rw [UInt32.toNat_shiftLeft, hamount, ← eq_shiftLeft_of_share_eq hle hnumber]
    exact Nat.mod_eq_of_lt ((Nat.lt_succ_self number).trans hsmall)
  have hnext : code <<< UInt32.ofNat (length - previous) + 1 = UInt32.ofNat (number + 1) := by
    rw [UInt32.ofNat_add, ← hshifted, UInt32.ofNat_toNat]
    rfl
  have hrange : ¬(length < previous ∨ 32 ≤ length - previous ∨ 32 < length) := by omega
  cases outcome with
  | error error => simp only [hangAll, if_neg hrange, hshifted, hhang]
  | ok next => simp only [hangAll, if_neg hrange, hshifted, hhang, if_neg hsmall.ne, hnext]

/-- Leaves that can be hung at consecutive ways are hung at these ways, and then come the others. -/
theorem hangAll_append {first : List (Leaf S × Bits)} {code : UInt32} {previous : ℕ}
    {nodes middle : List (Entry S)}
    (hways : Bits.Consecutive (code.toNat * kraftShare previous) (first.map (·.2)))
    (hsorted : (previous :: first.map (·.2.length)).Pairwise (· ≤ ·))
    (hlong : ∀ way ∈ first, way.2.length ≤ TableConfig.longestLength)
    (hhang : hangEach first nodes = some (.ok middle)) (second : List (Leaf S × ℕ)) :
    ∃ next : UInt32, next.toNat * kraftShare ((first.map (·.2.length)).getLastD previous) =
        code.toNat * kraftShare previous + kraftSum (first.map (·.2.length)) ∧
      hangAll code previous (first.map (fun way ↦ (way.1, way.2.length)) ++ second) nodes =
        hangAll next ((first.map (·.2.length)).getLastD previous) second middle := by
  induction first generalizing code previous nodes with
  | nil =>
    cases hhang
    exact ⟨code, by simp, rfl⟩
  | cons entry first ih =>
    obtain ⟨content, way⟩ := entry
    obtain ⟨hstart, hrest⟩ := hways
    rw [List.forall_mem_cons] at hlong
    rw [List.map_cons] at hsorted
    obtain ⟨after, hafter, hothers⟩ := hangEach_cons_iff.mp hhang
    have hlt := Bits.toNat_lt way
    have hbehind : code.toNat * kraftShare previous + kraftShare way.length =
        (UInt32.ofNat (Bits.toNat way + 1)).toNat * kraftShare way.length := by
      rw [UInt32.toNat_ofNat_of_lt' (succ_lt_size hlong.1 hlt.le), Nat.cast_succ, add_one_mul,
        hstart]
    rw [hbehind] at hrest
    obtain ⟨next, hnext, hrun⟩ := ih hrest hsorted.of_cons hlong.2 hothers
    refine ⟨next, ?_, ?_⟩
    · rw [List.map_cons, List.getLastD_cons, hnext, kraftSum_cons, ← hbehind, add_assoc]
    · have hle : previous ≤ way.length := List.rel_of_pairwise_cons hsorted (by simp)
      rw [← Bits.ofNat_toNat way] at hafter
      rw [List.map_cons, List.cons_append, hangAll_cons hle hlong.1 hstart hlt.le _ hafter,
        List.map_cons, List.getLastD_cons]
      exact hrun

/-! ### Lists of short lengths -/

section Assigned

variable {assigned : List (Leaf S × ℕ)} {tree : Tree S}

/-- Leaves at small depths below the root are hung one after the other. -/
theorem hangEach_paths_of_short (horder : tree.IsInOrder)
    (hshort : ∀ depth ∈ tree.depths, 1 ≤ depth ∧ depth ≤ TableConfig.longestLength) :
    tree.positions.length < vacantSlot ∧
      hangEach tree.paths [.branch .bare] = some (.ok (tree.grown tree.positions.length)) := by
  have hroom := length_positions_lt_vacantSlot fun depth hdepth ↦ (hshort depth hdepth).2
  refine ⟨hroom, hangEach_paths_root horder hroom ?_⟩
  cases tree with
  | leaf position content => exact absurd (hshort 0 (by simp)).1 (by decide)
  | node position weight left right => rfl

/-- The number that is too great for its length by one digit is refused when all nodes are there. -/
theorem hang_two_pow (horder : tree.IsInOrder) (hroom : tree.positions.length < vacantSlot)
    {depth : ℕ} (hdepth : tree.depths.head? = some depth) (hpos : 1 ≤ depth) {length : ℕ}
    (hle : depth ≤ length) (content : Leaf S) :
    hang content (Bits.ofNat length (2 ^ length)) 0 (tree.grown tree.positions.length) =
      some (.error (.notPrefixFree
        (if length = depth then "duplicate code path" else "code passes a leaf"))) := by
  obtain ⟨first, place, hfirst⟩ := tree.exists_leftmost hdepth
  have hzeros : Bits.ofNat length (2 ^ length) =
      List.replicate depth false ++ List.replicate (length - depth) false := by
    rw [Bits.ofNat_two_pow, List.replicate_append_replicate, Nat.add_sub_cancel' hle]
  have hend : List.replicate (length - depth) false = [] ↔ length = depth := by
    rw [List.replicate_eq_nil_iff]
    omega
  have hne : List.replicate depth false ≠ [] := by
    rw [Ne, List.replicate_eq_nil_iff]
    omega
  rw [hzeros, hang_leaf_again horder hroom hfirst hne]
  simp only [hend]

variable (hsorted : (assigned.map (·.2)).Pairwise (· ≤ ·))
  (hshort : ∀ length ∈ assigned.map (·.2), 1 ≤ length ∧ length ≤ TableConfig.longestLength)
include hsorted hshort

/-- Leaves with which the leaves of a tree begin are hung at the ways of the tree. -/
theorem hangFromRoot_of_begins {first second : List (Leaf S × Bits)} {rest : List (Leaf S × ℕ)}
    (hpaths : tree.paths = first ++ second)
    (hassigned : assigned = first.map (fun way ↦ (way.1, way.2.length)) ++ rest)
    {middle : List (Entry S)} (hhang : hangEach first [.branch .bare] = some (.ok middle)) :
    ∃ next : UInt32, next.toNat * kraftShare ((first.map (·.2.length)).getLastD
          ((assigned.map (·.2)).headD 0)) = kraftSum (first.map (·.2.length)) ∧
      hangFromRoot assigned =
        hangAll next ((first.map (·.2.length)).getLastD ((assigned.map (·.2)).headD 0)) rest
          middle := by
  have hlengths : assigned.map (·.2) = first.map (·.2.length) ++ rest.map (·.2) := by
    rw [hassigned, List.map_append, List.map_map]
    rfl
  have hmem (way : Leaf S × Bits) (hway : way ∈ first) : way.2.length ∈ assigned.map (·.2) := by
    rw [hlengths]
    exact List.mem_append_left _ (List.mem_map_of_mem hway)
  have hways := tree.consecutive_paths
  rw [hpaths, List.map_append, Bits.consecutive_append] at hways
  have hfirst := hsorted
  rw [hlengths] at hfirst
  have hhead : ((assigned.map (·.2)).headD 0 :: first.map (·.2.length)).Pairwise (· ≤ ·) := by
    refine List.pairwise_cons.mpr ⟨fun length hlength ↦ ?_, (List.pairwise_append.mp hfirst).1⟩
    obtain ⟨way, hway, rfl⟩ := List.mem_map.mp hlength
    exact headD_le hsorted (hmem way hway)
  have hstart : Bits.Consecutive ((0 : UInt32).toNat * kraftShare ((assigned.map (·.2)).headD 0))
      (first.map (·.2)) := by
    simpa using hways.1
  obtain ⟨next, hnext, hrun⟩ := hangAll_append hstart hhead
    (fun way hway ↦ (hshort _ (hmem way hway)).2) hhang rest
  rw [← hassigned] at hrun
  exact ⟨next, by simpa using hnext, hrun⟩

/-- The leaves of a tree are hung as its nodes. -/
theorem hangFromRoot_of_leaves (horder : tree.IsInOrder) (hleaves : tree.leaves = assigned) :
    hangFromRoot assigned = some (.ok (tree.grown tree.positions.length)) := by
  have hdepths : tree.depths = assigned.map (·.2) := by rw [← hleaves, depths]
  obtain ⟨_, hhang⟩ := hangEach_paths_of_short horder (hdepths ▸ hshort)
  have hall : assigned = tree.paths.map (fun way ↦ (way.1, way.2.length)) ++ [] := by
    rw [← leaves_eq_paths, hleaves, List.append_nil]
  obtain ⟨next, _, hrun⟩ :=
    hangFromRoot_of_begins hsorted hshort (List.append_nil tree.paths).symm hall hhang
  rw [hrun, hangAll]

/-- Leaves that leave room are the first ones of a tree, and others fill the room. -/
theorem exists_completed (hne : assigned ≠ []) (hroom : kraftSum (assigned.map (·.2)) < 1) :
    ∃ (tree : Tree S) (others : List (Leaf S × ℕ)), others ≠ [] ∧
      ofLengths (assigned ++ others) = .ok tree ∧
      ∀ depth ∈ (assigned ++ others).map (·.2), 1 ≤ depth ∧ depth ≤ TableConfig.longestLength := by
  obtain ⟨⟨content, _⟩, _⟩ := List.exists_mem_of_ne_nil assigned hne
  obtain ⟨missing, hmissing, hsum⟩ :=
    exists_missing (fun length hlength ↦ (hshort length hlength).2) hroom
  have hmap : (assigned ++ List.replicate missing (content, TableConfig.longestLength)).map (·.2) =
      assigned.map (·.2) ++ List.replicate missing TableConfig.longestLength := by
    rw [List.map_append, List.map_replicate]
  obtain ⟨tree, htree⟩ := exists_ofLengths
    (assigned ++ List.replicate missing (content, TableConfig.longestLength)) (by
      rw [hmap]
      refine List.pairwise_append.mpr ⟨hsorted, List.pairwise_replicate.mpr (Or.inr le_rfl), ?_⟩
      intro length hlength other hother
      rw [List.eq_of_mem_replicate hother]
      exact (hshort length hlength).2) (by rw [hmap, hsum])
  refine ⟨tree, _, ?_, htree, ?_⟩
  · rw [Ne, List.replicate_eq_nil_iff]
    exact hmissing.ne'
  · rw [hmap, List.forall_mem_append]
    refine ⟨hshort, fun depth hdepth ↦ ?_⟩
    rw [List.eq_of_mem_replicate hdepth]
    decide

/-- Leaves that leave room are hung, and a slot stays vacant. -/
theorem hangFromRoot_of_room (hne : assigned ≠ []) (hroom : kraftSum (assigned.map (·.2)) < 1) :
    ∃ nodes, hangFromRoot assigned = some (.ok nodes) ∧ nodes.any Entry.isOpen = true := by
  obtain ⟨tree, others, hothers, htree, hdepths⟩ := exists_completed hsorted hshort hne hroom
  have hleaves := leaves_of_ofLengths htree
  rw [← hleaves, ← depths] at hdepths
  obtain ⟨_, hhang⟩ := hangEach_paths_of_short (isInOrder_of_ofLengths htree) hdepths
  rw [leaves_eq_paths, List.map_eq_append_iff] at hleaves
  obtain ⟨first, second, hpaths, hfirst, rfl⟩ := hleaves
  rw [hpaths, hangEach_append_iff] at hhang
  obtain ⟨middle, hmiddle, hrest⟩ := hhang
  refine ⟨middle, ?_, ?_⟩
  · have hall : assigned = first.map (fun way ↦ (way.1, way.2.length)) ++ [] := by
      rw [hfirst, List.append_nil]
    obtain ⟨next, _, hrun⟩ := hangFromRoot_of_begins hsorted hshort hpaths hall hmiddle
    rw [hrun, hangAll]
  · cases second with
    | nil => exact absurd rfl hothers
    | cons entry second =>
      obtain ⟨other, way⟩ := entry
      have hway : way ≠ [] := by
        have hdepth : way.length ∈ tree.depths := by
          simp [depths_eq_paths, hpaths]
        exact List.ne_nil_of_length_pos (hdepths _ hdepth).1
      obtain ⟨next, hnext, _⟩ := hangEach_cons_iff.mp hrest
      exact any_isOpen_of_hang hnext hway

/-- The leaf behind those of a tree is refused. -/
theorem hangFromRoot_of_excess (horder : tree.IsInOrder) {content : Leaf S} {length : ℕ}
    {others : List (Leaf S × ℕ)} (hleaves : assigned = tree.leaves ++ (content, length) :: others) :
    hangFromRoot assigned =
      some (.error (.notPrefixFree (if length = (assigned.map (·.2)).headD 0 then
        "duplicate code path" else "code passes a leaf"))) := by
  have hlengths : assigned.map (·.2) = tree.depths ++ length :: others.map (·.2) := by
    rw [hleaves, List.map_append, List.map_cons, depths]
  have hdepths (depth : ℕ) (hdepth : depth ∈ tree.depths) : depth ∈ assigned.map (·.2) := by
    rw [hlengths]
    exact List.mem_append_left _ hdepth
  have hmem : length ∈ assigned.map (·.2) := by
    rw [hlengths]
    exact List.mem_append_right _ List.mem_cons_self
  obtain ⟨hroom, hhang⟩ := hangEach_paths_of_short horder fun depth hdepth ↦
    hshort depth (hdepths depth hdepth)
  obtain ⟨next, hnext, hrun⟩ := hangFromRoot_of_begins hsorted hshort
    (List.append_nil tree.paths).symm (by rw [← leaves_eq_paths, hleaves]) hhang
  rw [← depths_eq_paths] at hnext hrun
  have hlast : tree.depths.getLastD ((assigned.map (·.2)).headD 0) ≤ length := by
    rcases List.mem_cons.mp List.getLastD_mem_cons with hhead | hinside
    · rw [hhead]
      exact headD_le hsorted hmem
    · have hparts := hsorted
      rw [hlengths] at hparts
      exact (List.pairwise_append.mp hparts).2.2 _ hinside length List.mem_cons_self
  have hover : (2 ^ length : ℕ) * kraftShare length = next.toNat *
      kraftShare (tree.depths.getLastD ((assigned.map (·.2)).headD 0)) := by
    rw [hnext, kraftSum_depths, mul_comm]
    exact_mod_cast kraftShare_mul_two_pow_self length
  have hhead : tree.depths.head? = some ((assigned.map (·.2)).headD 0) := by
    obtain ⟨depth, others, hcons⟩ :=
      List.exists_cons_of_ne_nil (List.ne_nil_of_mem tree.depth_mem_depths)
    rw [hlengths, hcons, List.cons_append, List.headD_cons, List.head?_cons]
  have hpos := (hshort _ (hdepths _ (List.mem_of_head? hhead))).1
  rw [hrun, hangAll_cons hlast (hshort length hmem).2 hover le_rfl _
    (hang_two_pow horder hroom hhead hpos (headD_le hsorted hmem) content)]

/-- Hanging leaves at canonical ways one after the other yields the list of the nodes of the tree,
or the reason why there is none. -/
theorem Arena.ofLengths_eq (hne : assigned ≠ []) :
    Arena.ofLengths assigned = some ((Tree.ofLengths assigned).map arena) := by
  rw [Arena.ofLengths, if_neg hne]
  rcases ofLengths_cases hsorted with
    ⟨hroom, herror⟩ | ⟨_, tree, htree⟩ | ⟨_, tree, content, length, others, hleaves, horder, herror⟩
  · obtain ⟨nodes, hrun, hopen⟩ := hangFromRoot_of_room hsorted hshort hne hroom
    rw [hrun, herror]
    simp only [hopen, if_true, Except.map]
  · have hleaves := leaves_of_ofLengths htree
    have horder := isInOrder_of_ofLengths htree
    have hdepths : tree.depths = assigned.map (·.2) := by rw [← hleaves, depths]
    obtain ⟨hroom, _⟩ := hangEach_paths_of_short horder (hdepths ▸ hshort)
    have hsize : (tree.grown tree.positions.length).length = tree.positions.length :=
      length_grown tree.length_nodes.ge
    have hdeep : tree.depth = (assigned.map (·.2)).getLastD 0 := by
      rw [depth_eq_getLastD (hdepths ▸ hsorted), hdepths]
    have hlongest : tree.longest = tree.depth :=
      Nat.max_eq_right (hshort _ (hdepths ▸ tree.depth_mem_depths)).1
    rw [hangFromRoot_of_leaves hsorted hshort horder hleaves, htree]
    simp only [not_any_isOpen_grown horder hroom, Bool.false_eq_true, if_false, hsize,
      sumWeights_grown horder (isNumbered_of_ofLengths htree).2, Option.map_some, Except.map]
    rw [← hdeep, ← hlongest, ← hleaves, ← horder.position_eq_zero]
    rfl
  · rw [hangFromRoot_of_excess hsorted hshort horder hleaves, herror]
    rfl

end Assigned

end HuffmanCoding.Tree
