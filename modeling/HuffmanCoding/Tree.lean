import HuffmanCoding.Symbol
import HuffmanCoding.Weight

/-!
# Code trees

A code tree has a token in each leaf and two children below each inner node. The way from the root
to a leaf spells the codeword of the token: a zero goes left and a one goes right. Every node
carries its position in the list of nodes that is stored and shown (see `Tree.Arena`), and an inner
node carries the sum of the weights below it.
-/

set_option autoImplicit false
set_option relaxedAutoImplicit false

namespace HuffmanCoding

/-- A token and its weight. -/
structure Leaf (S : Type) where
  token : Token S
  weight : Weight
  deriving DecidableEq

/-- A binary tree with tokens in its leaves. -/
inductive Tree (S : Type) where
  | leaf (position : Nat) (content : Leaf S)
  | node (position : Nat) (weight : Weight) (left right : Tree S)
  deriving DecidableEq

namespace Tree

variable {S : Type}

def position : Tree S → Nat
  | leaf position _ => position
  | node position _ _ _ => position

def weight : Tree S → Weight
  | leaf _ content => content.weight
  | node _ weight _ _ => weight

def isLeaf : Tree S → Bool
  | leaf _ _ => true
  | node _ _ _ _ => false

/-- The tree whose root has two given trees below it. -/
def join (position : Nat) (left right : Tree S) : Tree S :=
  node position (left.weight + right.weight) left right

/-- The number of edges on the way to the deepest leaf. -/
def depth : Tree S → Nat
  | leaf _ _ => 0
  | node _ _ left right => max left.depth right.depth + 1

/-- The leaves from left to right, each with the number of edges above it, for a tree that hangs
below `above` edges. -/
def leavesBelow (above : Nat) : Tree S → List (Leaf S × Nat)
  | leaf _ content => [(content, above)]
  | node _ _ left right => left.leavesBelow (above + 1) ++ right.leavesBelow (above + 1)

/-- The leaves from left to right, each with its depth. -/
def leaves (tree : Tree S) : List (Leaf S × Nat) :=
  tree.leavesBelow 0

def leafCount (tree : Tree S) : Nat :=
  tree.leaves.length

/-- The length of the longest codeword. The token of a tree that is a lone leaf has a codeword of
one bit. -/
def longest (tree : Tree S) : Nat :=
  max 1 tree.depth

end Tree

end HuffmanCoding
