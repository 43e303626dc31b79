import HuffmanCoding.Error
import HuffmanCoding.Weight

/-!
# Configurations

A table configuration bounds the codewords of one table and says whether symbols outside of the
table can be written. A text codec has two tables and a cutoff below which a text gets no codeword
of its own. `check` names the first field that is out of range.
-/

set_option autoImplicit false
set_option relaxedAutoImplicit false

namespace HuffmanCoding

/-- How to build one table of codewords: the length that these keep to where the alphabet allows it,
the preferred width of the decoding window, and whether an escape is set aside, and with what
weight. -/
structure TableConfig where
  lengthBound : UInt8
  windowWidth : UInt8
  hasEscape : Bool
  escapeWeight : Weight
  deriving DecidableEq

namespace TableConfig

/-- The greatest length that a codeword can be allowed to have. -/
def longestLength : Nat := 24

/-- The greatest number of tokens that codewords of that length can tell apart. -/
def largestAlphabet : Nat := 1 <<< longestLength

def standard : TableConfig := ⟨16, 16, true, 1⟩

/-- A configuration that refuses symbols outside of the table. -/
def strict : TableConfig := { standard with hasEscape := false }

/-- A configuration with short codewords and a small decoding window. -/
def compact : TableConfig := { standard with lengthBound := 12, windowWidth := 12 }

/-- Fails at the first field that is out of range. -/
def check (config : TableConfig) : Except Error Unit :=
  if config.lengthBound.toNat < 1 ∨ longestLength < config.lengthBound.toNat then
    .error (.invalidConfig (.lengthBound 1 longestLength config.lengthBound.toNat))
  else if config.windowWidth.toNat < 1 ∨ longestLength < config.windowWidth.toNat then
    .error (.invalidConfig (.windowWidth 1 longestLength config.windowWidth.toNat))
  else if config.hasEscape ∧ config.escapeWeight = 0 then
    .error (.invalidConfig .weightlessEscape)
  else .ok ()

def describe (config : TableConfig) : String :=
  SpelledOut.record "CodecConfig"
    [("max_code_length", toString config.lengthBound),
      ("decode_table_bits", toString config.windowWidth), ("escapes", toString config.hasEscape),
      ("escape_weight", toString config.escapeWeight)]

end TableConfig

/-- How to build the tables of a codec for texts: one of the texts that occur `cutoff` times or
more, and one of the characters that spell other texts. -/
structure TextConfig where
  texts : TableConfig
  characters : TableConfig
  cutoff : Weight
  deriving DecidableEq

namespace TextConfig

def standard : TextConfig := ⟨.standard, .standard, 1⟩

/-- Fails at the first field that is out of range. A text below the cutoff has to be escaped, so
only a table with an escape can have a cutoff above one. -/
def check (config : TextConfig) : Except Error Unit := do
  config.texts.check
  config.characters.check
  if config.cutoff = 0 then .error (.invalidConfig .zeroCutoff)
  else if 1 < config.cutoff.toNat ∧ config.texts.hasEscape = false then
    .error (.invalidConfig .cutoffWithoutEscape)
  else .ok ()

end TextConfig

end HuffmanCoding
