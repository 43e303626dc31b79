import HuffmanCoding.Tree

/-!
# Trees from lengths

A list of leaves, each with the length of its codeword and the shortest first, determines a tree:
going through the list, each leaf takes the leftmost place that is still free at its depth. The
codewords are then consecutive numbers, shifted where the length grows. The construction succeeds
exactly if the lengths fill the tree, that is, if the numbers 2^-length add up to one.

Nodes have the positions in which a walk meets them that visits a node before its left subtree and
that before its right subtree.
-/

set_option autoImplicit false
set_option relaxedAutoImplicit false

namespace HuffmanCoding.Tree

variable {S : Type}

/-- Hangs leaves from the front of the list below a node at depth `depth` until the subtree is full.
The result is the subtree, the next free position and the leaves that are left; it is `none` if the
leaves run out or if `levels` levels do not suffice. -/
def fill : (levels depth next : Nat) → List (Leaf S × Nat) →
    Option (Tree S × Nat × List (Leaf S × Nat))
  | _, _, _, [] => none
  | 0, depth, next, (content, length) :: rest =>
    if length = depth then some (leaf next content, next + 1, rest) else none
  | levels + 1, depth, next, (content, length) :: rest =>
    if length = depth then some (leaf next content, next + 1, rest)
    else do
      let (left, after, rest) ← fill levels (depth + 1) (next + 1) ((content, length) :: rest)
      let (right, after, rest) ← fill levels (depth + 1) after rest
      some (join next left right, after, rest)

/-- The tree in which each leaf has the given depth. The codeword after the last one that fits would
be all zeros again: it is the codeword of the first leaf or goes through that leaf. -/
def ofLengths (assigned : List (Leaf S × Nat)) : Except Error (Tree S) :=
  let lengths := assigned.map (·.2)
  match fill (lengths.getLastD 0) 0 0 assigned with
  | none => .error .incompleteCode
  | some (tree, _, []) => .ok tree
  | some (_, _, (_, length) :: _) =>
    if length = lengths.headD 0 then .error (.notPrefixFree "duplicate code path")
    else .error (.notPrefixFree "code passes a leaf")

end HuffmanCoding.Tree
