import HuffmanCoding.Binary.Tables
import HuffmanCoding.Codec.AnyCodec

/-!
# Stored codecs

The stored forms of codecs. A codec is stored as its `SavedCodec`, and the value is refused if the
codec cannot be derived from it again. Nobody hears the warnings of that derivation.
-/

set_option autoImplicit false
set_option relaxedAutoImplicit false

namespace HuffmanCoding

open Binary (encode decode word readAlternative accept)

variable {S : Type} [Symbol S] [Binary S]

instance : Binary (SavedCodec S) where
  encode := fun saved ↦
    encode saved.config ++ encode saved.isTrainable ++ encode saved.frequencies ++
      encode saved.record
  decode := do
    let config ← decode
    let isTrainable ← decode
    let frequencies ← decode
    let record ← decode
    return ⟨config, isTrainable, frequencies, record⟩

instance : Binary (Codec S) where
  encode := fun codec ↦ encode codec.saved
  decode := do
    let saved ← decode
    accept (Codec.ofSaved saved).unheard

instance : Binary CharacterCodec where
  encode := fun codec ↦ encode codec.codec
  decode := do return ⟨← decode⟩

instance : Binary TextCodec where
  encode := fun codec ↦ encode codec.cutoff ++ encode codec.texts ++ encode codec.characters
  decode := do
    let cutoff ← decode
    let texts ← decode
    let characters ← decode
    return ⟨cutoff, texts, characters⟩

instance : Binary TextListCodec where
  encode := fun codec ↦ encode codec.texts
  decode := do return ⟨← decode⟩

instance : Binary AnyCodec where
  encode
    | .characters codec => word 4 0 ++ encode codec
    | .texts codec => word 4 1 ++ encode codec
    | .textLists codec => word 4 2 ++ encode codec
  decode := readAlternative
    [do return .characters (← decode), do return .texts (← decode),
      do return .textLists (← decode)]

end HuffmanCoding
