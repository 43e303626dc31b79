import HuffmanCoding.Text.CharacterSet.Extending
import HuffmanCoding.Text.CharacterSet.Invisible
import HuffmanCoding.Text.CharacterSet.Unassigned

/-!
# Quoted characters and texts

The form in which a message names a symbol: a character between single quotes, a text between
double quotes. The quote in use, the backslash and a few controls have short escapes; every other
character without a visible form of its own is written as its number in hexadecimal.
-/

set_option autoImplicit false
set_option relaxedAutoImplicit false

namespace HuffmanCoding.Quoted

/-- Tells whether a character has no visible form of its own. -/
def isHidden (character : Char) : Bool :=
  CharacterSet.invisible.contains character || CharacterSet.unassigned.contains character ||
    CharacterSet.extending.contains character

/-- A number in lower case hexadecimal digits, without leading zeros. -/
def hexadecimal (value : Nat) : String :=
  String.ofList (Nat.toDigits 16 value)

/-- One character as it stands between the quotes `quote`. -/
def escaped (quote character : Char) : String :=
  if character = quote || character = '\\' then String.ofList ['\\', character]
  else if character = '\t' then "\\t"
  else if character = '\r' then "\\r"
  else if character = '\n' then "\\n"
  else if character.toNat = 0 then "\\0"
  else if isHidden character then
    let digits := hexadecimal character.toNat
    s!"\\u\x7b{digits}\x7d"
  else character.toString

def char (character : Char) : String :=
  String.join ["'", escaped '\'' character, "'"]

def text (text : String) : String :=
  String.join (["\""] ++ text.toList.map (escaped '"') ++ ["\""])

end HuffmanCoding.Quoted
