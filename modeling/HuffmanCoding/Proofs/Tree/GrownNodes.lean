import HuffmanCoding.Proofs.Tree.Arena
import HuffmanCoding.Tree.NodesFromLengths

/-!
# Lists of nodes that grow

A list of nodes can grow from a root without children: each leaf is hung at the end of its way, and
the nodes that are not there yet are added on the walk to it (`hang`, `hangEach`).

Where the nodes of a tree are added in the order of their positions, what there is at any time is
the front of the list of nodes of the tree, in which the slots for the nodes behind are vacant
(`grown`). Adding a node and filling the slot of its parent leads from one of these lists to the
next (`grown_succ`).
-/

set_option autoImplicit false
set_option relaxedAutoImplicit false

namespace HuffmanCoding.Tree

variable {S : Type}

/-! ### Hanging leaves -/

/-- Hangs leaves one after the other, each at the end of a way from the root. -/
def hangEach : List (Leaf S × Bits) → List (Entry S) → Option (Except Error (List (Entry S)))
  | [], nodes => some (.ok nodes)
  | (content, way) :: others, nodes =>
    match hang content way 0 nodes with
    | some (.ok next) => hangEach others next
    | stopped => stopped

/-! ### The front of a list of nodes -/

/-- What a slot holds as long as there are only `size` nodes. -/
def slotUpTo (size index : ℕ) : ℕ :=
  if index < size then index else vacantSlot

/-- What there is of an inner node as long as there are only `size` nodes. -/
def Branch.upTo (size : ℕ) (branch : Branch) : Branch :=
  ⟨slotUpTo size branch.left, slotUpTo size branch.right, 0⟩

/-- What there is of an entry as long as there are only `size` nodes. -/
def Entry.upTo (size : ℕ) : Entry S → Entry S
  | .leaf content => .leaf content
  | .branch content => .branch (content.upTo size)

/-- The first `size` nodes of a tree, whose slots for nodes behind them are vacant. -/
def grown (tree : Tree S) (size : ℕ) : List (Entry S) :=
  (tree.arena.nodes.take size).map (Entry.upTo size)

theorem slotUpTo_succ {size index : ℕ} (h : index ≠ size) :
    slotUpTo (size + 1) index = slotUpTo size index := by
  have hsame : index < size + 1 ↔ index < size := by omega
  simp only [slotUpTo, hsame]

theorem Branch.child_upTo (branch : Branch) (size : ℕ) (bit : Bool) :
    (branch.upTo size).child bit = slotUpTo size (branch.child bit) := by
  cases bit <;> rfl

/-- A slot of an inner node is filled when there is a node for it. -/
theorem Branch.withChild_upTo {branch : Branch} {size : ℕ} {bit : Bool}
    (hchild : branch.child bit = size) (hother : branch.child (!bit) ≠ size) :
    (branch.upTo size).withChild bit size = branch.upTo (size + 1) := by
  have hnew : slotUpTo (size + 1) size = size := if_pos (Nat.lt_succ_self size)
  cases bit with
  | false =>
    change branch.left = size at hchild
    change branch.right ≠ size at hother
    simp [withChild, upTo, hchild, hnew, slotUpTo_succ hother]
  | true =>
    change branch.right = size at hchild
    change branch.left ≠ size at hother
    simp [withChild, upTo, hchild, hnew, slotUpTo_succ hother]

/-- Entries in which the new node is no child stay as they are. -/
theorem Entry.upTo_succ {entry : Entry S} {size : ℕ}
    (h : ∀ branch bit, entry = .branch branch → branch.child bit ≠ size) :
    entry.upTo (size + 1) = entry.upTo size := by
  cases entry with
  | leaf content => rfl
  | branch content =>
    have hleft : content.left ≠ size := h content false rfl
    have hright : content.right ≠ size := h content true rfl
    simp only [upTo, Branch.upTo, slotUpTo_succ hleft, slotUpTo_succ hright]

section Grown

variable {tree : Tree S} {size : ℕ}

theorem getElem?_grown (tree : Tree S) (size index : ℕ) : (tree.grown size)[index]? =
    if index < size then tree.arena.nodes[index]?.map (Entry.upTo size) else none := by
  rw [grown, List.getElem?_map, List.getElem?_take]
  split_ifs <;> rfl

theorem length_grown (h : size ≤ tree.arena.nodes.length) : (tree.grown size).length = size := by
  rw [grown, List.length_map, List.length_take, Nat.min_eq_left h]

/-- Adding the next node and filling the slot of its parent makes a list of nodes grow by one. -/
theorem grown_succ (h : tree.IsNumbered) {entry : Entry S}
    (hentry : tree.arena.nodes[size]? = some entry) {parent : ℕ} {bit : Bool} {branch : Branch}
    (hparent : tree.arena.nodes[parent]? = some (.branch branch))
    (hchild : branch.child bit = size) (hlt : parent < size) :
    (tree.grown size ++ [entry.upTo (size + 1)]).set parent
        (.branch ((branch.upTo size).withChild bit size)) = tree.grown (size + 1) := by
  have hsize : size < tree.arena.nodes.length := (List.getElem?_eq_some_iff.mp hentry).1
  have hunique {place : ℕ} {side : Bool} {other : Branch}
      (hother : tree.arena.nodes[place]? = some (.branch other))
      (hslot : other.child side = size) : (place, side) = (parent, bit) := by
    have hroot : size ≠ tree.arena.root :=
      ((isRooted_arena h).child_ne_root (parent, bit) size ⟨branch, hparent, hchild⟩).2
    exact ((isRooted_arena h).parent_unique size hsize hroot).unique ⟨other, hother, hslot⟩
      ⟨branch, hparent, hchild⟩
  refine List.ext_getElem? fun index ↦ ?_
  rw [getElem?_grown, List.getElem?_set, List.getElem?_append, List.length_append,
    length_grown hsize.le, List.length_singleton]
  rcases Nat.lt_trichotomy index size with hbefore | rfl | hbehind
  · rw [if_pos (by omega : index < size + 1), getElem?_grown, if_pos hbefore, if_pos hbefore]
    by_cases hsame : parent = index
    · subst hsame
      have hother : branch.child (!bit) ≠ size := fun hslot ↦ by
        simpa using hunique hparent hslot
      rw [if_pos rfl, if_pos (by omega), hparent, Branch.withChild_upTo hchild hother]
      rfl
    · rw [if_neg hsame]
      refine Option.map_congr fun found hfound ↦ ?_
      refine (Entry.upTo_succ fun other side hbranch hslot ↦ ?_).symm
      rw [hbranch] at hfound
      exact hsame (congrArg Prod.fst (hunique hfound hslot)).symm
  · rw [if_neg hlt.ne, if_neg (Nat.lt_irrefl index), Nat.sub_self, if_pos (Nat.lt_succ_self index),
      hentry]
    rfl
  · rw [if_neg (by omega), if_neg (by omega), if_neg (by omega), List.getElem?_singleton,
      if_neg (by omega)]

end Grown

/-- A tree of short codewords has a word left for vacant slots. -/
theorem length_positions_lt_vacantSlot {tree : Tree S}
    (h : ∀ depth ∈ tree.depths, depth ≤ TableConfig.longestLength) :
    tree.positions.length < vacantSlot := by
  have hscaled := kraftSum_mul_two_pow h
  rw [tree.kraftSum_depths, one_mul] at hscaled
  have hcount : tree.leafCount ≤ 2 ^ TableConfig.longestLength := by
    rw [← tree.length_depths, ← @Nat.cast_le ℚ, Nat.cast_pow, Nat.cast_ofNat, hscaled,
      Nat.cast_le]
    refine (List.length_map _).ge.trans (List.length_le_sum_of_one_le _ fun share hshare ↦ ?_)
    obtain ⟨depth, _, rfl⟩ := List.mem_map.mp hshare
    exact Nat.one_le_two_pow
  have hnodes := tree.length_positions
  have hlarge : 2 * 2 ^ TableConfig.longestLength ≤ vacantSlot := by decide
  omega

end HuffmanCoding.Tree
