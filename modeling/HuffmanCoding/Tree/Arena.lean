import HuffmanCoding.Tree

/-!
# Trees as lists of nodes

The stored form of a tree is the list of its nodes, where an inner node names its children by their
positions in the list. A list that was read from storage need not be the form of any tree.
-/

set_option autoImplicit false
set_option relaxedAutoImplicit false

namespace HuffmanCoding.Tree

variable {S : Type}

/-- An inner node that names the positions of its children, with the weight of all leaves below. -/
structure Branch where
  left : Nat
  right : Nat
  weight : Weight
  deriving DecidableEq

/-- The position of the child on the side of a bit. -/
def Branch.child (branch : Branch) (bit : Bool) : Nat :=
  bif bit then branch.right else branch.left

/-- An entry of a list of nodes. -/
inductive Entry (S : Type) where
  | leaf (content : Leaf S)
  | branch (content : Branch)
  deriving DecidableEq

def Entry.weight : Entry S → Weight
  | .leaf content => content.weight
  | .branch content => content.weight

/-- A tree as a list of nodes, with the position of the root, the number of leaves and the length of
the longest codeword. -/
structure Arena (S : Type) where
  nodes : List (Entry S)
  root : Nat
  leafCount : Nat
  longest : UInt8
  deriving DecidableEq

def entry : Tree S → Entry S
  | leaf _ content => .leaf content
  | node _ weight left right => .branch ⟨left.position, right.position, weight⟩

/-- The entries of all nodes, each with its position, in front of those in `rest`. -/
def entriesBefore (rest : List (Nat × Entry S)) : Tree S → List (Nat × Entry S)
  | leaf position content => (position, .leaf content) :: rest
  | node position weight left right =>
    (position, .branch ⟨left.position, right.position, weight⟩) ::
      left.entriesBefore (right.entriesBefore rest)

/-- The tree as a list of nodes, in the order of their positions. -/
def arena (tree : Tree S) : Arena S where
  nodes := ((tree.entriesBefore []).mergeSort fun first second ↦ first.1 ≤ second.1).map (·.2)
  root := tree.position
  leafCount := tree.leafCount
  longest := UInt8.ofNat tree.longest

end HuffmanCoding.Tree
