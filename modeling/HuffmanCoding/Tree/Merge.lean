import HuffmanCoding.Tree

/-!
# Merging the lightest trees

The tree of least weighted depth arises by merging the two lightest trees until one is left. Of two
trees of equal weight the one with the lower position counts as lighter, where leaves have the
positions in front and merged trees follow in the order in which they arise.

No search is needed for the lightest tree. The leaves wait in the order of their weights, and merged
trees arise in that order, so the lightest tree is at the front of one of two queues.
-/

set_option autoImplicit false
set_option relaxedAutoImplicit false

namespace HuffmanCoding.Tree

variable {S : Type}

/-- The trees that wait to be merged: leaves, lightest first, and merged trees, the older ones
oldest first and the newer ones newest first. -/
structure Frontier (S : Type) where
  leaves : List (Tree S)
  older : List (Tree S)
  newer : List (Tree S)

namespace Frontier

def merged (frontier : Frontier S) : List (Tree S) :=
  frontier.older ++ frontier.newer.reverse

/-- Leaves in the order of their positions, before anything is merged. -/
def ofLeaves (contents : List (Leaf S)) : Frontier S where
  leaves := (contents.zipIdx.map fun (content, position) ↦ leaf position content).mergeSort
    fun first second ↦ first.weight ≤ second.weight
  older := []
  newer := []

/-- The same trees, with a merged tree at the front of the older ones if there is any. -/
def settle (frontier : Frontier S) : Frontier S :=
  match frontier.older with
  | [] => { frontier with older := frontier.newer.reverse, newer := [] }
  | _ :: _ => frontier

/-- The lightest tree and the other ones. A leaf wins against a merged tree of the same weight. -/
def takeLightest (frontier : Frontier S) : Option (Tree S × Frontier S) :=
  let frontier := frontier.settle
  match frontier.leaves, frontier.older with
  | [], [] => none
  | first :: leaves, [] => some (first, { frontier with leaves })
  | [], first :: older => some (first, { frontier with older })
  | first :: leaves, second :: older =>
    if first.weight ≤ second.weight then some (first, { frontier with leaves })
    else some (second, { frontier with older })

/-- Puts a newly merged tree behind the others. -/
def push (frontier : Frontier S) (tree : Tree S) : Frontier S :=
  { frontier with newer := tree :: frontier.newer }

/-- Merges the two lightest trees `rounds` times, and takes the lightest tree then. The first merged
tree gets the position `next`. -/
def mergeRounds : (rounds next : Nat) → Frontier S → Option (Tree S)
  | 0, _, frontier => frontier.takeLightest.map (·.1)
  | rounds + 1, next, frontier => do
    let (left, frontier) ← frontier.takeLightest
    let (right, frontier) ← frontier.takeLightest
    mergeRounds rounds (next + 1) (frontier.push (join next left right))

end Frontier

/-- The tree of least weighted depth over the given leaves, if there are any. -/
def ofLeaves? (contents : List (Leaf S)) : Option (Tree S) :=
  (Frontier.ofLeaves contents).mergeRounds (contents.length - 1) contents.length

end HuffmanCoding.Tree
