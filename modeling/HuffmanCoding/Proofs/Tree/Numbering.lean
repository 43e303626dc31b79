import HuffmanCoding.Proofs.Tree.Alphabet
import HuffmanCoding.Proofs.Tree.Optimality

/-!
# The positions of nodes

A tree is numbered if its nodes have the positions from zero on, each of them once
(`IsNumbered`), and weighed if every inner node has the sum of the weights of its children
(`IsWeighed`). Both ways to make a tree yield such trees, though they number the nodes differently:
merging numbers the leaves first and the joined trees in the order in which they arise
(`isNumbered_of_ofLeaves?`), and filling numbers the nodes in the order of a walk
(`isNumbered_of_ofLengths`). So does building (`isNumbered_of_build`).

Where positions are different, only one way leads to each of them (`way_eq_of_position_eq`).
-/

set_option autoImplicit false
set_option relaxedAutoImplicit false

namespace HuffmanCoding.Tree

variable {S : Type}

/-! ### Subtrees -/

/-- The trees that hang at the nodes, a tree before those below it and these from left to right. -/
def subtrees : Tree S → List (Tree S)
  | leaf position content => [leaf position content]
  | node position weight left right =>
    node position weight left right :: (left.subtrees ++ right.subtrees)

/-- The tree at the end of a way, unless the way goes on behind a leaf. -/
def subtree? : Tree S → Bits → Option (Tree S)
  | tree, [] => some tree
  | leaf _ _, _ :: _ => none
  | node _ _ left _, false :: way => left.subtree? way
  | node _ _ _ right, true :: way => right.subtree? way

@[simp] theorem subtree?_nil (tree : Tree S) : tree.subtree? [] = some tree := by
  cases tree <;> rfl

theorem subtree?_cons (position : ℕ) (weight : Weight) (left right : Tree S) (bit : Bool)
    (way : Bits) : (node position weight left right).subtree? (bit :: way) =
      (bif bit then right else left).subtree? way := by
  cases bit <;> rfl

theorem self_mem_subtrees (tree : Tree S) : tree ∈ tree.subtrees := by
  cases tree <;> simp [subtrees]

/-- A tree hangs at a node if a way leads there. -/
theorem mem_subtrees_iff {tree other : Tree S} :
    other ∈ tree.subtrees ↔ ∃ way, tree.subtree? way = some other := by
  induction tree with
  | leaf position content =>
    rw [subtrees, List.mem_singleton]
    constructor
    · rintro rfl
      exact ⟨[], rfl⟩
    · rintro ⟨way, hway⟩
      cases way with
      | nil => exact (Option.some.inj hway).symm
      | cons bit way => cases hway
  | node position weight left right ihLeft ihRight =>
    rw [subtrees, List.mem_cons, List.mem_append, ihLeft, ihRight]
    constructor
    · rintro (rfl | ⟨way, hway⟩ | ⟨way, hway⟩)
      · exact ⟨[], rfl⟩
      · exact ⟨false :: way, hway⟩
      · exact ⟨true :: way, hway⟩
    · rintro ⟨way, hway⟩
      match way with
      | [] => exact Or.inl (Option.some.inj hway).symm
      | false :: way => exact Or.inr (Or.inl ⟨way, hway⟩)
      | true :: way => exact Or.inr (Or.inr ⟨way, hway⟩)

/-- Following two ways one after the other is following both as one way. -/
theorem subtree?_append (tree : Tree S) (first second : Bits) :
    tree.subtree? (first ++ second) =
      (tree.subtree? first).bind fun middle ↦ middle.subtree? second := by
  induction tree generalizing first with
  | leaf position content =>
    cases first with
    | nil => rfl
    | cons bit first => rfl
  | node position weight left right ihLeft ihRight =>
    match first with
    | [] => rfl
    | false :: first => exact ihLeft first
    | true :: first => exact ihRight first

/-- What hangs below a tree that hangs below another tree hangs below that one too. -/
theorem mem_subtrees_trans {tree middle other : Tree S} (hmiddle : middle ∈ tree.subtrees)
    (hother : other ∈ middle.subtrees) : other ∈ tree.subtrees := by
  obtain ⟨first, hfirst⟩ := mem_subtrees_iff.mp hmiddle
  obtain ⟨second, hsecond⟩ := mem_subtrees_iff.mp hother
  exact mem_subtrees_iff.mpr ⟨first ++ second, by rw [subtree?_append, hfirst]; exact hsecond⟩

section Children

variable {tree : Tree S} {position : ℕ} {weight : Weight} {left right : Tree S}

theorem child_mem_subtrees (hhere : node position weight left right ∈ tree.subtrees) (bit : Bool) :
    (bif bit then right else left) ∈ tree.subtrees := by
  refine mem_subtrees_trans hhere (List.mem_cons_of_mem _ ?_)
  cases bit
  · exact List.mem_append_left _ left.self_mem_subtrees
  · exact List.mem_append_right _ right.self_mem_subtrees

theorem subtree?_concat {way : Bits}
    (hhere : tree.subtree? way = some (node position weight left right)) (bit : Bool) :
    tree.subtree? (way ++ [bit]) = some (bif bit then right else left) := by
  rw [subtree?_append, hhere, Option.bind_some, subtree?_cons, subtree?_nil]

end Children

/-- The ways that end at a leaf are the paths of the tree. -/
theorem mem_paths_iff {tree : Tree S} {content : Leaf S} {way : Bits} :
    (content, way) ∈ tree.paths ↔ ∃ position, tree.subtree? way = some (leaf position content) := by
  induction tree generalizing way with
  | leaf position other => cases way <;> simp [paths, subtree?, eq_comm]
  | node position weight left right ihLeft ihRight =>
    cases way with
    | nil => simp [paths, subtree?]
    | cons bit way =>
      cases bit with
      | false => simp [paths, subtree?, ← ihLeft]
      | true => simp [paths, subtree?, ← ihRight]

/-- Zeros lead to the first leaf. -/
theorem exists_leftmost {tree : Tree S} {depth : ℕ} (h : tree.depths.head? = some depth) :
    ∃ content place, tree.subtree? (List.replicate depth false) = some (leaf place content) := by
  induction tree generalizing depth with
  | leaf position content =>
    obtain rfl : 0 = depth := Option.some.inj h
    exact ⟨content, position, rfl⟩
  | node position weight left right ihLeft _ =>
    obtain ⟨first, others, hleft⟩ :=
      List.exists_cons_of_ne_nil (List.ne_nil_of_mem left.depth_mem_depths)
    rw [depths_node, hleft, List.map_cons, List.cons_append, List.head?_cons,
      Option.some.injEq] at h
    obtain ⟨content, place, hplace⟩ := ihLeft (hleft ▸ List.head?_cons)
    rw [← h]
    exact ⟨content, place, hplace⟩

/-! ### Numbered trees -/

def positions (tree : Tree S) : List ℕ :=
  tree.subtrees.map position

@[simp] theorem positions_leaf (position : ℕ) (content : Leaf S) :
    (leaf position content).positions = [position] := rfl

@[simp] theorem positions_node (position : ℕ) (weight : Weight) (left right : Tree S) :
    (node position weight left right).positions =
      position :: (left.positions ++ right.positions) := by
  simp only [positions, subtrees, List.map_cons, List.map_append]
  rfl

@[simp] theorem positions_join (position : ℕ) (left right : Tree S) :
    (join position left right).positions = position :: (left.positions ++ right.positions) :=
  positions_node position _ left right

theorem position_mem_positions {tree other : Tree S} {way : Bits}
    (h : tree.subtree? way = some other) : other.position ∈ tree.positions :=
  List.mem_map_of_mem (mem_subtrees_iff.mpr ⟨way, h⟩)

/-- There is one inner node less than there are leaves. -/
theorem length_positions (tree : Tree S) : tree.positions.length + 1 = 2 * tree.leafCount := by
  induction tree with
  | leaf position content => rfl
  | node position weight left right ihLeft ihRight =>
    rw [positions_node, List.length_cons, List.length_append, ← length_contents, contents_node,
      List.length_append, length_contents, length_contents]
    omega

/-- The nodes have the positions from zero on, each of them once. -/
def IsNumbered (tree : Tree S) : Prop :=
  tree.positions.Perm (List.range tree.positions.length)

theorem IsNumbered.nodup {tree : Tree S} (h : tree.IsNumbered) : tree.positions.Nodup :=
  h.nodup_iff.mpr List.nodup_range

/-- Where positions are different, only one way leads to a position. -/
theorem way_eq_of_position_eq {tree first second : Tree S} (hnodup : tree.positions.Nodup)
    {way other : Bits} (hfirst : tree.subtree? way = some first)
    (hsecond : tree.subtree? other = some second) (heq : first.position = second.position) :
    way = other := by
  induction tree generalizing way other with
  | leaf position content =>
    cases way with
    | cons bit way => cases hfirst
    | nil =>
      cases other with
      | cons bit other => cases hsecond
      | nil => rfl
  | node position weight left right ihLeft ihRight =>
    rw [positions_node, List.nodup_cons, List.mem_append, not_or, List.nodup_append] at hnodup
    obtain ⟨⟨hrootLeft, hrootRight⟩, hleft, hright, hdisjoint⟩ := hnodup
    have hroot {way : Bits} {below : Tree S} {bit : Bool}
        (h : (node position weight left right).subtree? (bit :: way) = some below) :
        below.position ≠ position := by
      rintro rfl
      cases bit with
      | false => exact hrootLeft (position_mem_positions h)
      | true => exact hrootRight (position_mem_positions h)
    match way, other with
    | [], [] => rfl
    | [], bit :: other =>
      rw [← Option.some.inj hfirst] at heq
      exact absurd heq.symm (hroot hsecond)
    | bit :: way, [] =>
      rw [← Option.some.inj hsecond] at heq
      exact absurd heq (hroot hfirst)
    | false :: way, false :: other => rw [ihLeft hleft hfirst hsecond]
    | true :: way, true :: other => rw [ihRight hright hfirst hsecond]
    | false :: way, true :: other =>
      exact absurd heq (hdisjoint _ (position_mem_positions hfirst) _
        (position_mem_positions hsecond))
    | true :: way, false :: other =>
      exact absurd heq.symm (hdisjoint _ (position_mem_positions hsecond) _
        (position_mem_positions hfirst))

/-! ### Weighed trees -/

/-- Each inner node has the sum of the weights of its children. -/
def IsWeighed : Tree S → Prop
  | leaf _ _ => True
  | node _ weight left right =>
    weight = left.weight + right.weight ∧ left.IsWeighed ∧ right.IsWeighed

theorem IsWeighed.join {left right : Tree S} (hleft : left.IsWeighed) (hright : right.IsWeighed)
    (position : ℕ) : (join position left right).IsWeighed :=
  ⟨rfl, hleft, hright⟩

/-- The weight of a weighed tree is that of its leaves, as far as weights go. -/
theorem IsWeighed.toNat_weight {tree : Tree S} (h : tree.IsWeighed) :
    tree.weight.toNat = min tree.mass Weight.limit := by
  induction tree with
  | leaf position content =>
    rw [mass_leaf]
    exact (Nat.min_eq_left content.weight.toNat_le).symm
  | node position weight left right ihLeft ihRight =>
    obtain ⟨hweight, hleft, hright⟩ := h
    have hmass : (node position weight left right).mass = left.mass + right.mass := by
      simp [mass]
    rw [hmass, Tree.weight, hweight, Weight.toNat_add, ihLeft hleft, ihRight hright]
    omega

theorem IsWeighed.of_mem_subtrees {tree other : Tree S} (h : tree.IsWeighed)
    (hother : other ∈ tree.subtrees) : other.IsWeighed := by
  induction tree with
  | leaf position content =>
    rw [List.mem_singleton.mp hother]
    exact h
  | node position weight left right ihLeft ihRight =>
    rw [subtrees, List.mem_cons, List.mem_append] at hother
    rcases hother with rfl | hleft | hright
    · exact h
    · exact ihLeft h.2.1 hleft
    · exact ihRight h.2.2 hright

/-! ### Merged trees -/

/-- Merging gives one new position after the other to the joined trees. -/
theorem Frontier.positions_perm_of_mergeRounds {rounds next : ℕ} {frontier : Frontier S}
    {tree : Tree S} (h : frontier.mergeRounds rounds next = some tree)
    (hcount : frontier.trees.length = rounds + 1) :
    tree.positions.Perm (frontier.trees.flatMap positions ++ List.range' next rounds) := by
  induction rounds generalizing next frontier with
  | zero =>
    obtain ⟨rest, htake, hnil⟩ := takeLightest_of_mergeRounds h hcount
    have hperm := perm_of_takeLightest htake
    rw [hnil] at hperm
    simpa using (hperm.flatMap_right positions).symm
  | succ rounds ih =>
    obtain ⟨left, middle, right, last, hleft, hright, hrest, hlength⟩ :=
      exists_round_of_mergeRounds h hcount
    have hpermLeft := perm_of_takeLightest hleft
    have hpermRight := perm_of_takeLightest hright
    have hpush := perm_trees_push last (Tree.join next left right)
    have hbelow := ih hrest hlength
    have hall : (frontier.trees.flatMap positions).Perm
        (left.positions ++ (right.positions ++ last.trees.flatMap positions)) :=
      (hpermLeft.trans (hpermRight.cons left)).flatMap_right positions
    have hjoined : ((last.push (Tree.join next left right)).trees.flatMap positions).Perm
        (next :: (frontier.trees.flatMap positions)) := by
      refine (hpush.flatMap_right positions).trans ?_
      rw [List.flatMap_cons, positions_join, List.cons_append, List.append_assoc]
      exact hall.symm.cons next
    refine (hbelow.trans (hjoined.append_right _)).trans ?_
    rw [List.range'_succ, List.cons_append]
    exact List.perm_middle.symm

/-- The tree of some leaves is numbered. -/
theorem isNumbered_of_ofLeaves? {contents : List (Leaf S)} {tree : Tree S}
    (h : ofLeaves? contents = some tree) : tree.IsNumbered := by
  have hcount := Frontier.length_trees_ofLeaves (ne_nil_of_ofLeaves? h)
  have hleaves : (contents.zipIdx.map fun entry ↦ leaf entry.2 entry.1).flatMap positions =
      List.range' 0 contents.length := by
    rw [List.flatMap_map, ← List.zipIdx_map_snd 0 contents, List.map_eq_flatMap]
    rfl
  have hall : tree.positions.Perm
      (List.range' 0 contents.length ++ List.range' contents.length (contents.length - 1)) := by
    refine (Frontier.positions_perm_of_mergeRounds h hcount).trans (List.Perm.append_right _ ?_)
    rw [← hleaves]
    exact (Frontier.trees_ofLeaves_perm contents).flatMap_right positions
  have hrange : List.range' 0 contents.length ++
      List.range' contents.length (contents.length - 1) =
        List.range (contents.length + (contents.length - 1)) := by
    rw [List.range_eq_range']
    simpa using List.range'_append_1 (s := 0) (m := contents.length) (n := contents.length - 1)
  rw [hrange] at hall
  rwa [IsNumbered, hall.length_eq, List.length_range]

/-- Joining the two lightest trees again and again keeps sums of weights. -/
theorem Merges.isWeighed {trees : List (Tree S)} {tree : Tree S} (h : Merges trees tree)
    (htrees : ∀ other ∈ trees, other.IsWeighed) : tree.IsWeighed := by
  induction h with
  | lone tree => exact htrees tree (by simp)
  | join position hperm _ _ _ ih =>
    refine ih fun other hother ↦ ?_
    rcases List.mem_cons.mp hother with rfl | hrest
    · exact (htrees _ (hperm.mem_iff.mpr (by simp))).join
        (htrees _ (hperm.mem_iff.mpr (by simp))) position
    · exact htrees other (hperm.mem_iff.mpr (by simp [hrest]))

theorem isWeighed_of_ofLeaves? {contents : List (Leaf S)} {tree : Tree S}
    (h : ofLeaves? contents = some tree) : tree.IsWeighed := by
  refine (merges_of_ofLeaves? h).isWeighed fun other hother ↦ ?_
  obtain ⟨entry, _, rfl⟩ := List.mem_map.mp hother
  exact trivial

/-! ### Filled trees -/

/-- Filling numbers the nodes in the order of a walk, and sums up weights. -/
theorem positions_of_fill {levels depth next after : ℕ} {assigned rest : List (Leaf S × ℕ)}
    {tree : Tree S} (h : fill levels depth next assigned = some (tree, after, rest)) :
    tree.positions = List.range' next tree.positions.length ∧
      after = next + tree.positions.length ∧ tree.IsWeighed := by
  induction levels generalizing depth next after assigned rest tree with
  | zero =>
    obtain ⟨content, rfl, rfl, _⟩ | ⟨_, left, right, middle, behind, hlevels, _⟩ := fill_cases h
    · exact ⟨rfl, rfl, trivial⟩
    · cases hlevels
  | succ levels ih =>
    obtain ⟨content, rfl, rfl, _⟩ |
      ⟨_, left, right, middle, behind, hlevels, hleft, hright, rfl⟩ := fill_cases h
    · exact ⟨rfl, rfl, trivial⟩
    · cases hlevels
      obtain ⟨hleftRange, hmiddle, hleftWeighed⟩ := ih hleft
      obtain ⟨hrightRange, hafter, hrightWeighed⟩ := ih hright
      have hlength : (join next left right).positions.length =
          left.positions.length + right.positions.length + 1 := by
        rw [positions_join, List.length_cons, List.length_append]
      rw [hmiddle] at hrightRange hafter
      refine ⟨?_, by omega, hleftWeighed.join hrightWeighed next⟩
      rw [hlength, List.range'_succ, ← List.range'_append_1, ← hleftRange, ← hrightRange,
        positions_join]

/-- A tree that was made from lengths is numbered and weighed. -/
theorem isNumbered_of_ofLengths {assigned : List (Leaf S × ℕ)} {tree : Tree S}
    (h : ofLengths assigned = .ok tree) : tree.IsNumbered ∧ tree.IsWeighed := by
  obtain ⟨after, hfill⟩ := fill_of_ofLengths h
  obtain ⟨hpositions, _, hweighed⟩ := positions_of_fill hfill
  rw [← List.range_eq_range'] at hpositions
  exact ⟨List.Perm.of_eq hpositions, hweighed⟩

/-! ### Trees that were built -/

section Build

variable [Symbol S] {frequencies : Frequencies S} {config : TableConfig} {tree : Tree S}

/-- The tree of an alphabet is numbered and weighed, whether it was merged or filled. -/
theorem isNumbered_of_build (h : (build frequencies config).unheard = .ok tree) :
    tree.IsNumbered ∧ tree.IsWeighed := by
  obtain ⟨merged, hmerged, ⟨rfl, _⟩ | ⟨_, counts, hlimits⟩⟩ :=
    (isTreeWithin_of_build h).merged_or_limited
  · exact ⟨isNumbered_of_ofLeaves? hmerged, isWeighed_of_ofLeaves? hmerged⟩
  · exact isNumbered_of_ofLengths hlimits.ofLengths_eq

end Build

end HuffmanCoding.Tree
