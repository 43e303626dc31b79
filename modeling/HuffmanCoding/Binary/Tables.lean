import HuffmanCoding.Binary
import HuffmanCoding.Codebook
import HuffmanCoding.Frequencies
import HuffmanCoding.PackedStream
import HuffmanCoding.TableConfig
import HuffmanCoding.Tree.Arena
import HuffmanCoding.WindowDecoder

/-!
# Stored tables

The stored forms of configurations, counts, trees, codebooks, decoders and streams. A codebook is
stored as its rows, and rows that are not a codebook are refused. The other values are taken as they
are read.
-/

set_option autoImplicit false
set_option relaxedAutoImplicit false

namespace HuffmanCoding

open Binary (encode decode word readWord readAlternative accept)

variable {S : Type}

instance : Binary TableConfig where
  encode := fun config ↦
    encode config.lengthBound ++ encode config.windowWidth ++ encode config.hasEscape ++
      encode config.escapeWeight
  decode := do
    let lengthBound ← decode
    let windowWidth ← decode
    let hasEscape ← decode
    let escapeWeight ← decode
    return ⟨lengthBound, windowWidth, hasEscape, escapeWeight⟩

/-- The counts are stored in the order of the symbols. Of several counts for one symbol the last one
that is read counts. -/
instance [Symbol S] [Binary S] : Binary (Frequencies S) where
  encode := fun frequencies ↦ encode frequencies.toList
  decode := do
    let entries : List (S × Weight) ← decode
    return entries.foldl (fun table (symbol, weight) ↦ table.replace symbol weight) .empty

instance [Binary S] : Binary (Token S) where
  encode
    | .escape => word 4 0
    | .symbol symbol => word 4 1 ++ encode symbol
  decode := readAlternative [pure .escape, do return .symbol (← decode)]

instance [Binary S] : Binary (Leaf S) where
  encode := fun leaf ↦ encode leaf.token ++ encode leaf.weight
  decode := do
    let token ← decode
    let weight ← decode
    return ⟨token, weight⟩

instance : Binary Tree.Branch where
  encode := fun branch ↦ word 4 branch.left ++ word 4 branch.right ++ encode branch.weight
  decode := do
    let left ← readWord 4
    let right ← readWord 4
    let weight ← decode
    return ⟨left, right, weight⟩

instance [Binary S] : Binary (Tree.Entry S) where
  encode
    | .leaf content => word 4 0 ++ encode content
    | .branch content => word 4 1 ++ encode content
  decode := readAlternative [do return .leaf (← decode), do return .branch (← decode)]

instance [Binary S] : Binary (Tree.Arena S) where
  encode := fun arena ↦
    encode arena.nodes ++ word 4 arena.root ++ word 8 arena.leafCount ++ encode arena.longest
  decode := do
    let nodes ← decode
    let root ← readWord 4
    let leafCount ← readWord 8
    let longest ← decode
    return ⟨nodes, root, leafCount, longest⟩

instance : Binary Codeword where
  encode := fun codeword ↦ encode codeword.bits ++ encode codeword.length
  decode := do
    let bits ← decode
    let length ← decode
    return ⟨bits, length⟩

instance : Binary TableRecord where
  encode := fun record ↦ encode record.escape ++ encode record.longest
  decode := do
    let escape ← decode
    let longest ← decode
    return ⟨escape, longest⟩

instance [Binary S] : Binary (CodeRow S) where
  encode := fun row ↦ encode row.token ++ encode row.codeword ++ encode row.weight
  decode := do
    let token ← decode
    let codeword ← decode
    let weight ← decode
    return ⟨token, codeword, weight⟩

instance [Symbol S] [Binary S] : Binary (Codebook S) where
  encode := fun book ↦ encode book.rows
  decode := do
    let rows ← decode
    accept (Codebook.ofRows rows)

instance : Binary WindowSlot where
  encode := fun slot ↦ encode slot.token ++ encode slot.length
  decode := do
    let token ← decode
    let length ← decode
    return ⟨token, length⟩

instance : Binary WindowTable where
  encode := fun table ↦ encode table.width ++ encode table.slots.toList
  decode := do
    let width ← decode
    let slots : List WindowSlot ← decode
    return ⟨width, slots.toArray⟩

instance [Binary S] : Binary (WindowDecoder S) where
  encode := fun decoder ↦ encode decoder.tokens.toList ++ encode decoder.table
  decode := do
    let tokens : List (Token S) ← decode
    let table ← decode
    return ⟨tokens.toArray, table⟩

instance : Binary PackedStream where
  encode := fun stream ↦
    encode stream.bytes ++ word 8 stream.bitLength ++ word 8 stream.symbolCount
  decode := do
    let bytes ← decode
    let bitLength ← readWord 8
    let symbolCount ← readWord 8
    return ⟨bytes, bitLength, symbolCount⟩

end HuffmanCoding
