import HuffmanCoding.Tree.Canonical

/-!
# Bounded codeword lengths

Where the tree of least weighted depth is deeper than a bound, other lengths are found from the
number of codewords of each length. As long as there is a length above the bound, two codewords of
the greatest length make room: one of them moves up by one level, and the other one becomes the
sibling of a shorter codeword, which moves down by one level for that. The number of codewords and
the sum of 2^-length stay as they are.

The lengths are then given out anew, the shortest to the heaviest leaves.
-/

set_option autoImplicit false
set_option relaxedAutoImplicit false

namespace HuffmanCoding

/-- How many codewords there are of each length; the length is the index. -/
abbrev LengthCounts := List Nat

namespace LengthCounts

/-- The number of codewords of a length. -/
def ofLength (counts : LengthCounts) (length : Nat) : Nat :=
  counts.getD length 0

theorem ofLength_modify {counts : LengthCounts} {place : Nat} (hplace : place < counts.length)
    (change : Nat → Nat) (length : Nat) :
    ofLength (counts.modify place change) length =
      if length = place then change (counts.ofLength place) else counts.ofLength length := by
  simp only [ofLength, List.getD_eq_getElem?_getD, List.getElem?_modify]
  by_cases h : length = place
  · subst length
    simp [hplace]
  · simp [h, Ne.symm h]

theorem ofLength_modify_of_ne (counts : LengthCounts) {place length : Nat} (h : length ≠ place)
    (change : Nat → Nat) :
    ofLength (counts.modify place change) length = counts.ofLength length := by
  simp [ofLength, List.getD_eq_getElem?_getD, h.symm]

def total (counts : LengthCounts) : Nat :=
  counts.foldr (· + ·) 0

/-- The counts of some lengths, up to `deepest`. -/
def ofLengths (deepest : Nat) (lengths : List Nat) : LengthCounts :=
  lengths.foldl (fun counts length ↦ counts.modify length (· + 1))
    (List.replicate (deepest + 1) 0)

/-- The greatest length up to the given one that a codeword has, or zero if there is none. -/
def longestUpTo (counts : LengthCounts) : (length : Nat) → Nat
  | 0 => 0
  | length + 1 => if counts.ofLength (length + 1) = 0 then counts.longestUpTo length else length + 1

theorem longestUpTo_le (counts : LengthCounts) (length : Nat) :
    counts.longestUpTo length ≤ length := by
  induction length with
  | zero => exact Nat.le_refl 0
  | succ length ih =>
    rw [longestUpTo]
    split
    · exact Nat.le_succ_of_le ih
    · exact Nat.le_refl _

/-- Takes two codewords of a length away: one moves up, the other one becomes the sibling of the
longest codeword that is at least two bits shorter. There may be none that short. -/
def raisePair (counts : LengthCounts) (length : Nat) : Option LengthCounts :=
  let shorter := counts.longestUpTo (length - 2)
  if shorter = 0 then none
  else
    some ((((counts.modify length (· - 2)).modify (length - 1) (· + 1)).modify
      (shorter + 1) (· + 2)).modify shorter (· - 1))

/-- Takes pairs of codewords of one length away. -/
def raisePairs (length : Nat) : (pairs : Nat) → LengthCounts → Option LengthCounts
  | 0, counts => some counts
  | pairs + 1, counts => (counts.raisePair length).bind (raisePairs length pairs)

/-- Takes away all codewords of the `levels` lengths above the bound, the longest ones first. -/
def raiseLevels (bound : Nat) : (levels : Nat) → LengthCounts → Option LengthCounts
  | 0, counts => some counts
  | levels + 1, counts =>
    let length := bound + levels + 1
    (raisePairs length ((counts.ofLength length + 1) / 2) counts).bind (raiseLevels bound levels)

/-- The counts of as many codewords, none longer than the bound. -/
def limit (counts : LengthCounts) (bound : Nat) : Except Error LengthCounts :=
  match counts.raiseLevels bound (counts.length - 1 - bound) with
  | some counts => .ok (counts.take (bound + 1))
  | none => .error (.alphabetTooLarge counts.total (1 <<< bound))

/-- The lengths that are counted, shortest first. The empty codeword is not among them. -/
def lengths (counts : LengthCounts) : List Nat :=
  (counts.zipIdx.drop 1).flatMap fun (count, length) ↦ List.replicate count length

end LengthCounts

namespace Tree

variable {S : Type}

/-- Heavier leaves come first; of two equal ones the one with the smaller token does. -/
def outranks [Ord S] (first second : Leaf S) : Bool :=
  second.weight.toNat < first.weight.toNat ||
    first.weight = second.weight && first.token.precedes second.token

/-- The tree over the same leaves in which no codeword is longer than the bound. -/
def limitDepth [Ord S] (tree : Tree S) (bound : Nat) : Except Error (Tree S) := do
  let counts ← (LengthCounts.ofLengths tree.depth (tree.leaves.map (·.2))).limit bound
  let ranked := (tree.leaves.map (·.1)).mergeSort outranks
  ofLengths (ranked.zip counts.lengths)

end Tree

end HuffmanCoding
