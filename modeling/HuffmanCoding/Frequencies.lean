import HuffmanCoding.Symbol
import HuffmanCoding.Weight
import Std.Data.ExtTreeMap

/-!
# Frequencies

How often each symbol was seen. Two tables are equal as soon as they hold the same weight for every
symbol, so the order of training leaves no trace. Training never stores a weight of zero, but a
table that was read from storage can hold one, and then the symbol belongs to the alphabet.
-/

set_option autoImplicit false
set_option relaxedAutoImplicit false

namespace HuffmanCoding

/-- A weight for each symbol of an alphabet. -/
structure Frequencies (S : Type) [Symbol S] where
  weights : Std.ExtTreeMap S Weight compare

namespace Frequencies

variable {S : Type} [Symbol S]

def empty : Frequencies S := ⟨∅⟩

/-- The weight of a symbol, which is zero if the symbol was never seen. -/
def weight (table : Frequencies S) (symbol : S) : Weight :=
  table.weights.getD symbol 0

/-- The symbols and their weights, in the order of the symbols. -/
def toList (table : Frequencies S) : List (S × Weight) :=
  table.weights.toList

def size (table : Frequencies S) : Nat :=
  table.weights.size

def isEmpty (table : Frequencies S) : Bool :=
  table.weights.isEmpty

def total (table : Frequencies S) : Weight :=
  Weight.sum (table.toList.map (·.2))

def add (table : Frequencies S) (symbol : S) (occurrences : Weight) : Frequencies S :=
  if occurrences = 0 then table
  else ⟨table.weights.alter symbol fun weight ↦ some (weight.getD 0 + occurrences)⟩

/-- Adds one occurrence of each symbol in a sequence. -/
def addAll (table : Frequencies S) (symbols : List S) : Frequencies S :=
  symbols.foldl (fun table symbol ↦ table.add symbol 1) table

def merge (table other : Frequencies S) : Frequencies S :=
  other.toList.foldl (fun table entry ↦ table.add entry.1 entry.2) table

/-- The table of several sequences, each counted on its own. -/
def ofShards (shards : List (List S)) : Frequencies S :=
  shards.foldl (fun table shard ↦ table.merge (empty.addAll shard)) empty

/-- The symbols that were seen at least `cutoff` times. -/
def keepAtLeast (table : Frequencies S) (cutoff : Weight) : Frequencies S :=
  ⟨table.weights.filter fun _ weight ↦ cutoff ≤ weight⟩

/-- Puts a weight in the place of the one a symbol had. -/
def replace (table : Frequencies S) (symbol : S) (weight : Weight) : Frequencies S :=
  ⟨table.weights.insert symbol weight⟩

end Frequencies

end HuffmanCoding
