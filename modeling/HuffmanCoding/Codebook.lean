import HuffmanCoding.Tree
import Std.Data.HashMap

/-!
# Codebooks

A codebook lists the tokens with their codewords, in the order of the tokens. It arises from a code
tree, or from rows that were stored, and then only if no codeword begins the codeword of another row
(`Codebook.ofRows`). Neighbours suffice for that check once the codewords are sorted by the streams
that start with them.

Two stored rows may hold the same symbol. The later one then counts.
-/

set_option autoImplicit false
set_option relaxedAutoImplicit false

namespace HuffmanCoding

/-- A token, its codeword, and the weight that the length of the codeword was derived from. -/
structure CodeRow (S : Type) where
  token : Token S
  codeword : Codeword
  weight : Weight
  deriving DecidableEq

/-- Tells whether no codeword in the list begins the one right behind it. -/
def Codeword.isPrefixFreeChain : List Codeword → Bool
  | first :: second :: rest => !first.begins second && isPrefixFreeChain (second :: rest)
  | _ => true

/-- Tells whether no codeword in the list begins another one. -/
def Codeword.arePrefixFree (codewords : List Codeword) : Bool :=
  isPrefixFreeChain (codewords.mergeSort Codeword.precedes)

namespace Tree

variable {S : Type}

/-- The leaves from left to right with the codewords that lead to them, for a tree that hangs below
the end of the codeword `above`. -/
def rowsBelow (above : Codeword) : Tree S → List (CodeRow S)
  | leaf _ content => [⟨content.token, above, content.weight⟩]
  | node _ _ left right =>
    left.rowsBelow (above.push false) ++ right.rowsBelow (above.push true)

/-- The leaves from left to right with their codewords. A lone leaf has the codeword zero. -/
def rows : Tree S → List (CodeRow S)
  | leaf _ content => [⟨content.token, Codeword.empty.push false, content.weight⟩]
  | tree => tree.rowsBelow Codeword.empty

end Tree

/-- The rows of a code in the order of their tokens, the codewords of the symbols, and the codeword
of the escape, if there is one. -/
structure Codebook (S : Type) [Symbol S] where
  rows : List (CodeRow S)
  codewords : Std.HashMap S Codeword
  escape : Option Codeword

namespace Codebook

variable {S : Type} [Symbol S]

/-- Rows in the order of their tokens. -/
def sorted (rows : List (CodeRow S)) : List (CodeRow S) :=
  rows.mergeSort fun first second ↦ first.token.precedes second.token

/-- The codewords of the symbols in the rows, where later rows replace earlier ones. -/
def codewordsOf (rows : List (CodeRow S)) : Std.HashMap S Codeword :=
  rows.foldl (fun codewords row ↦
    match row.token with
    | .symbol symbol => codewords.insert symbol row.codeword
    | .escape => codewords) ∅

/-- The codeword of the last row that holds the escape. -/
def escapeOf (rows : List (CodeRow S)) : Option Codeword :=
  rows.foldl (fun escape row ↦ if row.token.isEscape then some row.codeword else escape) none

/-- The codebook with the given rows, which are in the order of their tokens. -/
def ofSorted (rows : List (CodeRow S)) : Codebook S :=
  ⟨rows, codewordsOf rows, escapeOf rows⟩

def ofTree (tree : Tree S) : Codebook S :=
  ofSorted (sorted tree.rows)

/-- Tells whether no codeword begins the codeword of another row. -/
def isPrefixFree (book : Codebook S) : Bool :=
  Codeword.arePrefixFree (book.rows.map (·.codeword))

/-- The codebook with the given rows, unless a codeword begins the codeword of another row. -/
def ofRows (rows : List (CodeRow S)) : Except Error (Codebook S) :=
  let book := ofSorted (sorted rows)
  if book.isPrefixFree then .ok book
  else .error (.notPrefixFree "overlapping code rows")

def codewordOf? (book : Codebook S) (symbol : S) : Option Codeword :=
  book.codewords[symbol]?

def tokenOf? (book : Codebook S) (codeword : Codeword) : Option (Token S) :=
  (book.rows.find? fun row ↦ row.codeword = codeword).map (·.token)

def size (book : Codebook S) : Nat :=
  book.rows.length

/-- The length of the longest codeword, which is zero in a codebook without rows. -/
def longest (book : Codebook S) : UInt8 :=
  book.rows.foldl (fun longest row ↦ max longest row.codeword.length) 0

def totalWeight (book : Codebook S) : Nat :=
  (book.rows.map (·.weight.toNat)).foldr (· + ·) 0

/-- The sum over all rows of the weight times the length of the codeword. -/
def weightedLength (book : Codebook S) : Nat :=
  (book.rows.map fun row ↦ row.weight.toNat * row.codeword.length.toNat).foldr (· + ·) 0

end Codebook

end HuffmanCoding
