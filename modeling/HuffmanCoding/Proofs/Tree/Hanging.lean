import HuffmanCoding.Proofs.Tree.GrownNodes

/-!
# Hanging the leaves of a tree

Where the leaves of a tree are hung from left to right, the nodes come up in the order of a walk
that visits a node before those below it. If that is the order of their positions, the list of nodes
grows to that of the tree: after the leaves of a subtree the nodes of the subtree are there
(`hangEach_paths`), and in the end all nodes are (`hangEach_paths_root`).

Then no slot is vacant any more (`not_any_isOpen_grown`), and a way that goes to a leaf of the tree,
or on behind one, is refused (`hang_leaf_again`). As long as a leaf can be hung, on the other hand,
there is a vacant slot (`any_isOpen_of_hang`).
-/

set_option autoImplicit false
set_option relaxedAutoImplicit false

namespace HuffmanCoding.Tree

variable {S : Type}

/-! ### Nodes in the order of a walk -/

/-- The positions of the nodes are consecutive, in the order of a walk that visits a node before
those below it. -/
def IsWalked (tree : Tree S) : Prop :=
  tree.positions = List.range' tree.position tree.positions.length

theorem isWalked_of_positions_eq {tree : Tree S} {start : ℕ}
    (h : tree.positions = List.range' start tree.positions.length) :
    tree.IsWalked ∧ tree.position = start := by
  have hstart : tree.position = start := by
    cases tree with
    | leaf position content => exact List.head_eq_of_cons_eq h
    | node position weight left right =>
      rw [positions_node, List.length_cons, List.range'_succ, List.cons.injEq] at h
      exact h.1
  exact ⟨by rw [IsWalked, hstart, ← h], hstart⟩

/-- The nodes have the positions from zero on, in the order of a walk. -/
def IsInOrder (tree : Tree S) : Prop :=
  tree.positions = List.range tree.positions.length

namespace IsInOrder

variable {tree : Tree S}

theorem isNumbered (h : tree.IsInOrder) : tree.IsNumbered :=
  List.Perm.of_eq h

theorem isWalked (h : tree.IsInOrder) : tree.IsWalked :=
  (isWalked_of_positions_eq (h.trans List.range_eq_range')).1

theorem position_eq_zero (h : tree.IsInOrder) : tree.position = 0 :=
  (isWalked_of_positions_eq (h.trans List.range_eq_range')).2

theorem position_lt (h : tree.IsInOrder) {other : Tree S} (hother : other ∈ tree.subtrees) :
    other.position < tree.positions.length := by
  have hmem : other.position ∈ tree.positions := List.mem_map_of_mem hother
  rw [h] at hmem
  exact List.mem_range.mp hmem

end IsInOrder

/-- Below a node come the nodes on its left, and then those on its right. -/
theorem IsWalked.children {position : ℕ} {weight : Weight} {left right : Tree S}
    (h : (node position weight left right).IsWalked) :
    (left.IsWalked ∧ left.position = position + 1) ∧
      right.IsWalked ∧ right.position = position + 1 + left.positions.length := by
  rw [IsWalked, positions_node, List.length_cons, List.length_append, Tree.position,
    List.range'_succ, List.cons_inj_right, ← List.range'_append_1] at h
  obtain ⟨hleft, hright⟩ := List.append_inj h (by rw [List.length_range'])
  exact ⟨isWalked_of_positions_eq hleft, isWalked_of_positions_eq hright⟩

theorem IsWalked.of_mem_subtrees {tree other : Tree S} (h : tree.IsWalked)
    (hother : other ∈ tree.subtrees) : other.IsWalked ∧ tree.position ≤ other.position := by
  induction tree with
  | leaf position content =>
    rw [List.mem_singleton.mp hother]
    exact ⟨h, le_rfl⟩
  | node position weight left right ihLeft ihRight =>
    obtain ⟨⟨hleft, hleftPosition⟩, hright, hrightPosition⟩ := h.children
    rw [subtrees, List.mem_cons, List.mem_append] at hother
    rcases hother with rfl | hbelow | hbelow
    · exact ⟨h, le_rfl⟩
    · obtain ⟨hwalked, hle⟩ := ihLeft hleft hbelow
      exact ⟨hwalked, by rw [Tree.position]; omega⟩
    · obtain ⟨hwalked, hle⟩ := ihRight hright hbelow
      exact ⟨hwalked, by rw [Tree.position]; omega⟩

/-- A node comes before its children. -/
theorem IsWalked.lt_position {position : ℕ} {weight : Weight} {left right : Tree S}
    (h : (node position weight left right).IsWalked) (bit : Bool) :
    position < (bif bit then right else left).position := by
  obtain ⟨⟨_, hleft⟩, _, hright⟩ := h.children
  cases bit
  · exact hleft ▸ Nat.lt_succ_self position
  · rw [cond_true, hright]
    omega

/-! ### Walks in lists that grow -/

section Walks

variable {tree : Tree S} {size : ℕ} {position : ℕ} {weight : Weight} {left right : Tree S}

theorem getElem?_grown_position (h : tree.IsNumbered) {here : Tree S}
    (hhere : here ∈ tree.subtrees) (hsize : here.position < size) :
    (tree.grown size)[here.position]? = some (here.entry.upTo size) := by
  rw [getElem?_grown, if_pos hsize, getElem?_nodes_position h hhere, Option.map_some]

/-- A walk goes on to a child that is there. -/
theorem hang_present (h : tree.IsNumbered) (hroom : size < vacantSlot)
    (hhere : node position weight left right ∈ tree.subtrees) (hsize : position < size) {bit : Bool}
    (hchild : (bif bit then right else left).position < size) {way : Bits} (hway : way ≠ [])
    (content : Leaf S) :
    hang content (bit :: way) position (tree.grown size) =
      hang content way (bif bit then right else left).position (tree.grown size) := by
  have hentry := getElem?_grown_position h hhere hsize
  rw [Tree.position] at hentry
  have hslot : (Branch.upTo size ⟨left.position, right.position, weight⟩).child bit =
      (bif bit then right else left).position := by
    rw [Branch.child_upTo, child_branch, slotUpTo, if_pos hchild]
  have hthere : (bif bit then right else left).position ≠ vacantSlot := by omega
  rw [hang, hentry]
  simp only [entry, Entry.upTo, hslot, if_neg hthere, if_neg hway]

/-- A walk adds the child to which it comes next. -/
theorem hang_new (h : tree.IsNumbered) (hroom : size < vacantSlot)
    (hhere : node position weight left right ∈ tree.subtrees) (hsize : position < size) {bit : Bool}
    {child : Tree S} (hchild : child = bif bit then right else left)
    (hposition : child.position = size) {way : Bits} {content : Leaf S}
    (hadded : child.entry.upTo (size + 1) = if way = [] then .leaf content else .branch .bare) :
    hang content (bit :: way) position (tree.grown size) =
      hang content way child.position (tree.grown (size + 1)) := by
  have hentry := getElem?_grown_position h hhere hsize
  have hnode := getElem?_nodes_position h hhere
  have hnext := getElem?_nodes_position h (hchild ▸ child_mem_subtrees hhere bit)
  have hslot := child_branch weight left right bit
  rw [← hchild, hposition] at hslot
  rw [hposition] at hnext
  have hvacant : (Branch.upTo size ⟨left.position, right.position, weight⟩).child bit =
      vacantSlot := by
    rw [Branch.child_upTo, hslot, slotUpTo, if_neg (Nat.lt_irrefl size)]
  have hindex : (UInt32.ofNat (tree.grown size).length).toNat = size := by
    rw [length_grown (List.getElem?_eq_some_iff.mp hnext).1.le,
      UInt32.toNat_ofNat_of_lt' (hroom.trans (by decide))]
  rw [Tree.position] at hentry hnode
  rw [hang, hentry]
  simp only [entry, Entry.upTo, hvacant, if_true, hindex]
  rw [← hadded, grown_succ h hnext hnode hslot hsize, hposition]

/-- A walk that goes on behind a node leads to this node. -/
theorem hang_walk (h : tree.IsNumbered) (hroom : size < vacantSlot) {start here : Tree S}
    (hstart : start ∈ tree.subtrees) (hwalked : start.IsWalked) {before rest : Bits}
    (hway : start.subtree? before = some here) (hsize : here.position < size) (hrest : rest ≠ [])
    (content : Leaf S) : hang content (before ++ rest) start.position (tree.grown size) =
      hang content rest here.position (tree.grown size) := by
  induction before generalizing start with
  | nil =>
    rw [subtree?_nil, Option.some.injEq] at hway
    rw [hway, List.nil_append]
  | cons bit before ih =>
    cases start with
    | leaf position other => cases hway
    | node position weight left right =>
      rw [subtree?_cons] at hway
      have hbelow := child_mem_subtrees hstart bit
      have hself := (node position weight left right).self_mem_subtrees
      have hchild := (hwalked.of_mem_subtrees (child_mem_subtrees hself bit)).1
      have hle := (hchild.of_mem_subtrees (mem_subtrees_iff.mpr ⟨before, hway⟩)).2
      have hlt := hwalked.lt_position bit
      rw [List.cons_append, Tree.position, hang_present h hroom hstart (by omega) (by omega)
        (by simp [hrest]), ih hbelow hchild hway]

theorem hang_walk_root (h : tree.IsInOrder) (hroom : size < vacantSlot) {here : Tree S}
    {before rest : Bits} (hway : tree.subtree? before = some here) (hsize : here.position < size)
    (hrest : rest ≠ []) (content : Leaf S) : hang content (before ++ rest) 0 (tree.grown size) =
      hang content rest here.position (tree.grown size) := by
  rw [← h.position_eq_zero]
  exact hang_walk h.isNumbered hroom tree.self_mem_subtrees h.isWalked hway hsize hrest content

/-- An inner node is without children when it is added. -/
theorem IsWalked.upTo_node (h : (node position weight left right).IsWalked) :
    (node position weight left right).entry.upTo (position + 1) = .branch .bare := by
  obtain ⟨⟨_, hleft⟩, _, hright⟩ := h.children
  have hleftVacant : slotUpTo (position + 1) left.position = vacantSlot := if_neg (by omega)
  have hrightVacant : slotUpTo (position + 1) right.position = vacantSlot := if_neg (by omega)
  change Entry.branch ⟨slotUpTo (position + 1) left.position,
    slotUpTo (position + 1) right.position, 0⟩ = _
  rw [hleftVacant, hrightVacant, Branch.bare]

/-- The node that is added on the way to a leaf is this leaf at the end of the way, and else an
inner node without children. -/
theorem IsWalked.upTo_entry {here : Tree S} (h : here.IsWalked) {way : Bits} {content : Leaf S}
    {place : ℕ} (hway : here.subtree? way = some (leaf place content)) :
    here.entry.upTo (here.position + 1) =
      if way = [] then .leaf content else .branch .bare := by
  cases here with
  | leaf position other =>
    cases way with
    | nil =>
      cases hway
      rfl
    | cons bit way => cases hway
  | node position weight left right =>
    cases way with
    | nil => cases hway
    | cons bit way =>
      rw [if_neg (List.cons_ne_nil bit way)]
      exact h.upTo_node

end Walks

/-! ### Whole trees -/

/-- A leaf is hung only where there is a vacant slot. -/
theorem any_isOpen_of_hang {content : Leaf S} {way : Bits} {current : ℕ}
    {nodes next : List (Entry S)} (h : hang content way current nodes = some (.ok next))
    (hway : way ≠ []) : nodes.any Entry.isOpen = true := by
  induction way generalizing current with
  | nil => exact absurd rfl hway
  | cons bit way ih =>
    rw [hang] at h
    split at h
    · cases h
    · cases h
    · rename_i branch hbranch
      by_cases hvacant : branch.child bit = vacantSlot
      · refine List.any_eq_true.mpr ⟨_, List.mem_of_getElem? hbranch, ?_⟩
        have hslot : branch.left = vacantSlot ∨ branch.right = vacantSlot := by
          cases bit
          · exact Or.inl hvacant
          · exact Or.inr hvacant
        simpa [Entry.isOpen] using hslot
      · rw [if_neg hvacant] at h
        split_ifs at h with hend
        · cases h
        · exact ih h hend

theorem hangEach_cons_iff {content : Leaf S} {way : Bits} {others : List (Leaf S × Bits)}
    {nodes last : List (Entry S)} :
    hangEach ((content, way) :: others) nodes = some (.ok last) ↔
      ∃ next, hang content way 0 nodes = some (.ok next) ∧
        hangEach others next = some (.ok last) := by
  rw [hangEach]
  split
  · rename_i next hnext
    simp [hnext]
  · rename_i hstopped
    constructor
    · intro h
      exact absurd h (hstopped last)
    · rintro ⟨next, hnext, _⟩
      exact absurd hnext (hstopped next)

theorem hangEach_append_iff {first second : List (Leaf S × Bits)} {nodes last : List (Entry S)} :
    hangEach (first ++ second) nodes = some (.ok last) ↔
      ∃ middle, hangEach first nodes = some (.ok middle) ∧
        hangEach second middle = some (.ok last) := by
  induction first generalizing nodes with
  | nil => simp [hangEach]
  | cons entry first ih =>
    obtain ⟨content, way⟩ := entry
    simp only [List.cons_append, hangEach_cons_iff, ih]
    constructor
    · rintro ⟨next, hnext, middle, hfirst, hsecond⟩
      exact ⟨middle, ⟨next, hnext, hfirst⟩, hsecond⟩
    · rintro ⟨middle, ⟨next, hnext, hfirst⟩, hsecond⟩
      exact ⟨next, hnext, middle, hfirst, hsecond⟩

/-- While there are `size` nodes, the walk to any leaf below a node comes to this node, and it has
to add no other node for that. -/
def IsNext (tree here : Tree S) (before : Bits) (size : ℕ) : Prop :=
  ∀ content way place, here.subtree? way = some (leaf place content) →
    hang content (before ++ way) 0 (tree.grown size) =
      hang content way here.position (tree.grown (here.position + 1))

section InOrder

variable {tree : Tree S} (h : tree.IsInOrder) (hroom : tree.positions.length < vacantSlot)
include h hroom

/-- Hanging the leaves of a subtree whose root is next adds its nodes. -/
theorem hangEach_paths {here : Tree S} {before : Bits} {size : ℕ}
    (hhere : tree.subtree? before = some here) (hnext : tree.IsNext here before size) :
    hangEach (here.paths.map fun way ↦ (way.1, before ++ way.2)) (tree.grown size) =
      some (.ok (tree.grown (here.position + here.positions.length))) := by
  induction here generalizing before size with
  | leaf position content =>
    rw [paths, List.map_singleton, hangEach, hnext content [] position rfl]
    rfl
  | node position weight left right ihLeft ihRight =>
    have hmem := mem_subtrees_iff.mpr ⟨before, hhere⟩
    obtain ⟨⟨hleft, hleftPosition⟩, hright, hrightPosition⟩ :=
      (h.isWalked.of_mem_subtrees hmem).1.children
    have hleftRoom : left.position < vacantSlot :=
      (h.position_lt (child_mem_subtrees hmem false)).trans hroom
    have hrightRoom : right.position < vacantSlot :=
      (h.position_lt (child_mem_subtrees hmem true)).trans hroom
    have hleftNext : tree.IsNext left (before ++ [false]) size := by
      intro content way place hway
      rw [List.append_assoc, List.singleton_append, hnext content (false :: way) place hway,
        Tree.position, ← hleftPosition]
      exact hang_new h.isNumbered hleftRoom hmem (by omega) rfl rfl (hleft.upTo_entry hway)
    have hrightNext : tree.IsNext right (before ++ [true]) right.position := by
      intro content way place hway
      have hbehind : position < right.position := by omega
      rw [List.append_assoc, List.singleton_append,
        hang_walk_root h hrightRoom hhere hbehind (List.cons_ne_nil true way)]
      exact hang_new h.isNumbered hrightRoom hmem hbehind rfl rfl (hright.upTo_entry hway)
    have hleftDone := ihLeft (subtree?_concat hhere false) hleftNext
    have hrightDone := ihRight (subtree?_concat hhere true) hrightNext
    have hsplit : (node position weight left right).paths.map
        (fun way ↦ (way.1, before ++ way.2)) =
          left.paths.map (fun way ↦ (way.1, (before ++ [false]) ++ way.2)) ++
            right.paths.map fun way ↦ (way.1, (before ++ [true]) ++ way.2) := by
      simp [paths, Function.comp_def]
    have hend : right.position + right.positions.length =
        position + (node position weight left right).positions.length := by
      rw [positions_node, List.length_cons, List.length_append]
      omega
    rw [hleftPosition, ← hrightPosition] at hleftDone
    rw [hsplit, Tree.position, ← hend]
    exact hangEach_append_iff.mpr ⟨_, hleftDone, hrightDone⟩

/-- Hanging all leaves of a tree below a root without children adds all nodes. -/
theorem hangEach_paths_root (hinner : tree.isLeaf = false) :
    hangEach tree.paths [.branch .bare] = some (.ok (tree.grown tree.positions.length)) := by
  have hroot : tree.grown 1 = [.branch .bare] := by
    have hentry := getElem?_nodes_position h.isNumbered tree.self_mem_subtrees
    have hfirst := h.position_eq_zero
    rw [hfirst, ← List.head?_eq_getElem?] at hentry
    rw [grown, List.take_one, hentry]
    cases tree with
    | leaf position content => cases hinner
    | node position weight left right =>
      obtain rfl : position = 0 := hfirst
      exact congrArg (fun root ↦ [root]) h.isWalked.upTo_node
  have hnext : tree.IsNext tree [] 1 := fun content way place _ ↦ by
    rw [List.nil_append, h.position_eq_zero]
  have hdone := hangEach_paths h hroom tree.subtree?_nil hnext
  rw [h.position_eq_zero, Nat.zero_add, hroot] at hdone
  simpa using hdone

/-- The slots of an inner node are filled when all nodes are there. -/
theorem child_upTo_length {here : Tree S} {branch : Branch} (hhere : here ∈ tree.subtrees)
    (hbranch : here.entry = .branch branch) (bit : Bool) :
    (branch.upTo tree.positions.length).child bit ≠ vacantSlot := by
  cases here with
  | leaf position content => cases hbranch
  | node position weight left right =>
    cases hbranch
    have hlt := h.position_lt (child_mem_subtrees hhere bit)
    rw [Branch.child_upTo, child_branch, slotUpTo, if_pos hlt]
    omega

theorem not_any_isOpen_grown : (tree.grown tree.positions.length).any Entry.isOpen = false := by
  rw [List.any_eq_false]
  intro entry hentry
  obtain ⟨found, hfound, rfl⟩ := List.mem_map.mp hentry
  obtain ⟨index, hindex⟩ := List.mem_iff_getElem?.mp (List.mem_of_mem_take hfound)
  obtain ⟨here, hhere, _, rfl⟩ := (getElem?_nodes_iff h.isNumbered).mp hindex
  cases hbranch : here.entry with
  | leaf content => exact Bool.false_ne_true
  | branch branch =>
    have hleft : (branch.upTo tree.positions.length).left ≠ vacantSlot :=
      child_upTo_length h hroom hhere hbranch false
    have hright : (branch.upTo tree.positions.length).right ≠ vacantSlot :=
      child_upTo_length h hroom hhere hbranch true
    simp [Entry.upTo, Entry.isOpen, hleft, hright]

/-- When all nodes are there, a way that goes to a leaf or on behind it is refused. -/
theorem hang_leaf_again {content other : Leaf S} {way more : Bits} {place : ℕ}
    (hway : tree.subtree? way = some (leaf place other)) (hne : way ≠ []) :
    hang content (way ++ more) 0 (tree.grown tree.positions.length) =
      some (.error (.notPrefixFree
        (if more = [] then "duplicate code path" else "code passes a leaf"))) := by
  have hmem {before : Bits} {here : Tree S} (hhere : tree.subtree? before = some here) :
      here ∈ tree.subtrees :=
    mem_subtrees_iff.mpr ⟨before, hhere⟩
  have hentry {before : Bits} {here : Tree S} (hhere : tree.subtree? before = some here) :=
    getElem?_grown_position h.isNumbered (hmem hhere) (h.position_lt (hmem hhere))
  cases more with
  | nil =>
    obtain rfl | ⟨before, bit, rfl⟩ := way.eq_nil_or_concat
    · exact absurd rfl hne
    rw [List.concat_eq_append] at hway ⊢
    rw [subtree?_append, Option.bind_eq_some_iff] at hway
    obtain ⟨parent, hparent, hchild⟩ := hway
    rw [List.append_nil, hang_walk_root h hroom hparent (h.position_lt (hmem hparent))
      (List.cons_ne_nil bit []), hang, hentry hparent]
    cases hbranch : parent.entry with
    | leaf content =>
      rw [entry_eq_leaf_iff.mp hbranch] at hchild
      cases hchild
    | branch branch =>
      have hfilled := child_upTo_length h hroom (hmem hparent) hbranch bit
      simp only [Entry.upTo, if_neg hfilled, if_true]
  | cons bit more =>
    rw [hang_walk_root h hroom hway (h.position_lt (hmem hway)) (List.cons_ne_nil bit more), hang,
      hentry hway]
    rfl

end InOrder

end HuffmanCoding.Tree
