import HuffmanCoding.Codebook.Encoding
import HuffmanCoding.Tree.Build
import HuffmanCoding.WindowDecoder

/-!
# The tables of a codec

Counted symbols determine, under a configuration, a tree, a codebook and a decoder. They are made
together once and never change.
-/

set_option autoImplicit false
set_option relaxedAutoImplicit false

namespace HuffmanCoding

/-- Everything that is derived from counted symbols: the tree of their alphabet, the codewords that
it spells, and a decoder for these. -/
structure Tables (S : Type) [Symbol S] where
  frequencies : Frequencies S
  tree : Tree S
  book : Codebook S
  decoder : WindowDecoder S

namespace Tables

variable {S : Type} [Symbol S]

def build (frequencies : Frequencies S) (config : TableConfig) : Logged (Tables S) := do
  let tree ← Tree.build frequencies config
  let book := Codebook.ofTree tree
  let decoder ← WindowDecoder.ofCodebook book config
  return ⟨frequencies, tree, book, decoder⟩

/-- What a saved codec remembers of the tables. -/
def record (tables : Tables S) : TableRecord :=
  ⟨tables.book.escape, tables.book.longest⟩

end Tables

end HuffmanCoding
