import HuffmanCoding.Frequencies

/-!
# Counting a corpus

A corpus is a byte sequence. Its characters are counted only if all of it is a text. Its lines are
counted one after the other, so those in front of a damaged line stay counted.
-/

set_option autoImplicit false
set_option relaxedAutoImplicit false

namespace HuffmanCoding.Frequencies

def addCharacters (table : Frequencies Char) (corpus : List UInt8) :
    Except Error (Frequencies Char) :=
  match Utf8.decode corpus with
  | .ok text => .ok (table.addAll text.toList)
  | .error _ => .error (.input .notText)

/-- Adds texts one after the other up to the first one that is not UTF-8. The result is the table
left behind, beside the error if there was one. -/
def addTexts (table : Frequencies String) : List (List UInt8) →
    Except Error Unit × Frequencies String
  | [] => (.ok (), table)
  | line :: rest =>
    match Utf8.decode line with
    | .ok text => addTexts (table.add text 1) rest
    | .error _ => (.error (.input .notText), table)

/-- Adds the lines of a corpus up to the first damaged one. -/
def addLines (table : Frequencies String) (corpus : List UInt8) :
    Except Error Unit × Frequencies String :=
  table.addTexts (Utf8.lines corpus)

end HuffmanCoding.Frequencies
