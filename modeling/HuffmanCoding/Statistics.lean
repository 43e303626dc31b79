import HuffmanCoding.CodecKind

/-!
# Statistics

What an encoding cost, in exact counts, and the rates that are read off the counts. A rate is the
quotient of the two closest floating point numbers; where there is nothing to divide by, it has a
fixed value that its definition names.
-/

set_option autoImplicit false
set_option relaxedAutoImplicit false

namespace HuffmanCoding

/-- The floating point number closest to a natural number; of two equally close ones the one with an
even last digit. The digits below the first 64 cannot be seen but for whether they are all zero. -/
def closestFloat (value : Nat) : Float :=
  let hidden := value.log2 - 63
  let leading := value >>> hidden
  let marked := if leading <<< hidden = value then leading else leading ||| 1
  (UInt64.ofNat marked).toFloat.scaleB hidden

/-- The quotient of two counts, or `otherwise` if the second one is zero. -/
def quotient (dividend divisor : Nat) (otherwise : Float) : Float :=
  if divisor = 0 then otherwise else closestFloat dividend / closestFloat divisor

/-- The size of a sequence before and after encoding, in bits. -/
structure SizeRatio where
  raw : Nat
  encoded : Nat
  deriving DecidableEq, Repr

namespace SizeRatio

/-- How many times smaller the sequence became, or zero if nothing was written. -/
def factor (ratio : SizeRatio) : Float :=
  quotient ratio.raw ratio.encoded 0

/-- The part of the size that was saved, in percent, or zero if there was nothing to save. -/
def savings (ratio : SizeRatio) : Float :=
  if ratio.raw = 0 then 0 else (1 - quotient ratio.encoded ratio.raw 0) * 100

/-- The number of bits saved, which is negative if the sequence grew. It is exact as long as both
sizes are below 2^63 and is otherwise known up to a multiple of 2^64. -/
def saved (ratio : SizeRatio) : Int :=
  ((ratio.raw : Int) - ratio.encoded).bmod UInt64.size

/-- Tells whether the sequence became smaller. -/
def isEffective (ratio : SizeRatio) : Bool :=
  ratio.encoded < ratio.raw

end SizeRatio

/-- What one encoding cost: how many symbols there were and how many of them were written as
literals, and the bits that were written beside those that the symbols have outside of any stream.
-/
structure Statistics where
  kind : Option CodecKind
  symbols : Nat
  escaped : Nat
  encodedBits : Nat
  rawBits : Nat
  deriving DecidableEq, Repr

namespace Statistics

def empty : Statistics := ⟨none, 0, 0, 0, 0⟩

/-- Counts one symbol of a given size, and whether it was written as a literal. -/
def tally (statistics : Statistics) (rawBits : Nat) (escaped : Bool) : Statistics :=
  { statistics with
    escaped := statistics.escaped + escaped.toNat
    rawBits := statistics.rawBits + rawBits }

def ratio (statistics : Statistics) : SizeRatio :=
  ⟨statistics.rawBits, statistics.encodedBits⟩

/-- The average number of bits per symbol, or zero without symbols. -/
def bitsPerSymbol (statistics : Statistics) : Float :=
  quotient statistics.encodedBits statistics.symbols 0

/-- The part of the symbols that were written as literals, or zero without symbols. -/
def escapeRate (statistics : Statistics) : Float :=
  quotient statistics.escaped statistics.symbols 0

/-- The statistics of two encodings together. The kind of the first one counts if it is known. -/
def merge (first second : Statistics) : Statistics where
  kind := first.kind.or second.kind
  symbols := first.symbols + second.symbols
  escaped := first.escaped + second.escaped
  encodedBits := first.encodedBits + second.encodedBits
  rawBits := first.rawBits + second.rawBits

end Statistics

/-- The sums over many encodings, beside the number of those that failed. -/
structure UsageTotals where
  operations : Nat
  symbols : Nat
  escaped : Nat
  rawBits : Nat
  encodedBits : Nat
  errors : Nat
  deriving DecidableEq, Repr

namespace UsageTotals

def empty : UsageTotals := ⟨0, 0, 0, 0, 0, 0⟩

def record (totals : UsageTotals) (statistics : Statistics) : UsageTotals where
  operations := totals.operations + 1
  symbols := totals.symbols + statistics.symbols
  escaped := totals.escaped + statistics.escaped
  rawBits := totals.rawBits + statistics.rawBits
  encodedBits := totals.encodedBits + statistics.encodedBits
  errors := totals.errors

def recordError (totals : UsageTotals) : UsageTotals :=
  { totals with errors := totals.errors + 1 }

/-- How many times smaller the sequences became, or one if nothing was written. -/
def averageFactor (totals : UsageTotals) : Float :=
  quotient totals.rawBits totals.encodedBits 1

/-- The average number of bits per symbol, or zero without symbols. -/
def bitsPerSymbol (totals : UsageTotals) : Float :=
  quotient totals.encodedBits totals.symbols 0

/-- The part of the encodings that failed, or zero without encodings. -/
def errorRate (totals : UsageTotals) : Float :=
  quotient totals.errors (totals.operations + totals.errors) 0

end UsageTotals

end HuffmanCoding
