import HuffmanCoding.Frequencies
import HuffmanCoding.TableConfig
import HuffmanCoding.Tree.LengthLimit
import HuffmanCoding.Tree.Merge
import HuffmanCoding.Warning

/-!
# The tree of an alphabet

The alphabet consists of the escape, if the configuration sets one aside, and the counted symbols.
Its tree has the least weighted depth if that keeps to the bound on codeword lengths, and is
otherwise rebuilt within the bound. A bound that leaves too few codewords for the alphabet gives
way. Each departure from the configuration is reported.
-/

set_option autoImplicit false
set_option relaxedAutoImplicit false

namespace HuffmanCoding

/-- The tokens that get a codeword, with their weights. -/
def alphabet {S : Type} [Symbol S] (frequencies : Frequencies S) (config : TableConfig) :
    List (Leaf S) :=
  (if config.hasEscape then [⟨.escape, config.escapeWeight⟩] else []) ++
    frequencies.toList.map fun (symbol, weight) ↦ ⟨.symbol symbol, weight⟩

/-- The least length, at least one, of which there are enough codewords for that many tokens. -/
def sufficientLength (tokens : Nat) : Nat :=
  ((List.range' 1 TableConfig.longestLength).find? (tokens ≤ 1 <<< ·)).getD
    TableConfig.longestLength

namespace Tree

variable {S : Type} [Symbol S]

/-- The tree over at least two leaves, within a bound that is great enough for them. -/
def within (bound : Nat) (contents : List (Leaf S)) : Logged (Tree S) :=
  match ofLeaves? contents with
  | none => throw .emptyAlphabet
  | some tree =>
    if tree.depth ≤ bound then pure tree
    else do
      let limited ← Logged.ofExcept (tree.limitDepth bound)
      Logged.warn (.depthLimited tree.depth bound limited.depth)
      return limited

/-- The tree over some leaves, within a bound that gives way if it is too small for them. -/
def widened (bound : Nat) (contents : List (Leaf S)) : Logged (Tree S) := do
  let needed := sufficientLength contents.length
  Logged.warnIf (bound < needed) (.boundWidened contents.length needed bound)
  match contents with
  | [content] =>
    Logged.warn .loneToken
    return leaf 0 content
  | contents => within (max bound needed) contents

/-- The tree of the counted symbols under a configuration. There is none before something was
counted. -/
def build (frequencies : Frequencies S) (config : TableConfig) : Logged (Tree S) := do
  Logged.ofExcept config.check
  if frequencies.total = 0 then throw .emptyAlphabet
  else
    let contents := alphabet frequencies config
    if TableConfig.largestAlphabet < contents.length then
      throw (.alphabetTooLarge contents.length TableConfig.largestAlphabet)
    else widened config.lengthBound.toNat contents

end Tree

end HuffmanCoding
