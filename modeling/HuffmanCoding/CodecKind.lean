/-!
# Kinds of codecs

A codec handles sequences of characters, of texts or of lists of texts. The kind is the word for
this in messages and reports.
-/

set_option autoImplicit false
set_option relaxedAutoImplicit false

namespace HuffmanCoding

/-- What a codec takes as one symbol. -/
inductive CodecKind where
  | character
  | text
  | textList
  deriving DecidableEq, Repr

def CodecKind.name : CodecKind → String
  | .character => "character"
  | .text => "string"
  | .textList => "string-list"

instance : ToString CodecKind := ⟨CodecKind.name⟩

end HuffmanCoding
