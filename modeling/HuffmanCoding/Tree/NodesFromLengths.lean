import HuffmanCoding.Bits
import HuffmanCoding.Tree.Arena

/-!
# Lists of nodes from lengths

Leaves whose lengths are in order can be hung one after the other below a root without children, the
first one at the end of zeros and each other one at the number after the last one, with zeros behind
it where the length grows. The nodes that are not there yet are added on the walk to a leaf, and the
slot for a child that is not there holds the greatest word. Numbers are kept in words, and a slot
that is still vacant in the end tells that the code is incomplete. When all nodes are there, a walk
sums up the weights below each inner node.
-/

set_option autoImplicit false
set_option relaxedAutoImplicit false

namespace HuffmanCoding.Tree

variable {S : Type}

/-- What the slot for a child holds as long as there is no child: the greatest word. -/
def vacantSlot : Nat := UInt32.size - 1

def Branch.bare : Branch := ⟨vacantSlot, vacantSlot, 0⟩

/-- The inner node with a child on the side of a bit. -/
def Branch.withChild (branch : Branch) (bit : Bool) (index : Nat) : Branch :=
  bif bit then { branch with right := index } else { branch with left := index }

/-- Walks from a node along a way, adds the nodes that are not there yet, and hangs the leaf at the
end. There is no outcome if a node is looked for behind the end of the list. -/
def hang (content : Leaf S) :
    Bits → (current : Nat) → List (Entry S) → Option (Except Error (List (Entry S)))
  | [], _, nodes => some (.ok nodes)
  | bit :: way, current, nodes =>
    match nodes[current]? with
    | none => none
    | some (.leaf _) => some (.error (.notPrefixFree "code passes a leaf"))
    | some (.branch branch) =>
      if branch.child bit = vacantSlot then
        let index := (UInt32.ofNat nodes.length).toNat
        let added := if way = [] then Entry.leaf content else .branch .bare
        hang content way index
          ((nodes ++ [added]).set current (.branch (branch.withChild bit index)))
      else if way = [] then some (.error (.notPrefixFree "duplicate code path"))
      else hang content way (branch.child bit) nodes

/-- The entry is an inner node one of whose slots is vacant. -/
def Entry.isOpen : Entry S → Bool
  | .leaf _ => false
  | .branch content => content.left = vacantSlot || content.right = vacantSlot

/-- The entry with another weight, if it is an inner node. -/
def Entry.reweighed (weight : Weight) : Entry S → Entry S
  | .leaf content => .leaf content
  | .branch content => .branch { content with weight }

/-- Sums up the weights below a node and records the sums in the inner nodes. There is no outcome if
a node is looked for behind the end of the list, or if `levels` levels do not suffice. -/
def sumWeights : (levels index : Nat) → List (Entry S) → Option (Weight × List (Entry S))
  | 0, _, _ => none
  | levels + 1, index, nodes =>
    match nodes[index]? with
    | none => none
    | some (.leaf content) => some (content.weight, nodes)
    | some (.branch branch) => do
      let (left, nodes) ← sumWeights levels branch.left nodes
      let (right, nodes) ← sumWeights levels branch.right nodes
      return (left + right, nodes.modify index (Entry.reweighed (left + right)))

/-- Hangs leaves at canonical ways, where `code` is the number after the last way, which had
`previous` bits. There is no outcome if lengths decrease or do not fit into a word, or if a number
outgrows its word. -/
def hangAll : (code : UInt32) → (previous : Nat) → List (Leaf S × Nat) → List (Entry S) →
    Option (Except Error (List (Entry S)))
  | _, _, [], nodes => some (.ok nodes)
  | code, previous, (content, length) :: others, nodes =>
    if length < previous ∨ 32 ≤ length - previous ∨ 32 < length then none
    else
      let shifted := code <<< UInt32.ofNat (length - previous)
      match hang content (Bits.ofNat length shifted.toNat) 0 nodes with
      | some (.ok next) =>
        if shifted.toNat + 1 = UInt32.size then none else hangAll (shifted + 1) length others next
      | stopped => stopped

/-- Hangs leaves at canonical ways below a root without children, the first one at the end of
zeros. -/
def hangFromRoot (assigned : List (Leaf S × Nat)) : Option (Except Error (List (Entry S))) :=
  hangAll 0 ((assigned.map (·.2)).headD 0) assigned [.branch .bare]

/-- The list of nodes of the tree in which each leaf has the given depth. -/
def Arena.ofLengths (assigned : List (Leaf S × Nat)) : Option (Except Error (Arena S)) :=
  if assigned = [] then none
  else
    match hangFromRoot assigned with
    | some (.ok nodes) =>
      if nodes.any Entry.isOpen then some (.error .incompleteCode)
      else
        (sumWeights nodes.length 0 nodes).map fun (_, nodes) ↦
          .ok ⟨nodes, 0, assigned.length, UInt8.ofNat ((assigned.map (·.2)).getLastD 0)⟩
    | some (.error error) => some (.error error)
    | none => none

end HuffmanCoding.Tree
