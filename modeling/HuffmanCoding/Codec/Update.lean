import HuffmanCoding.PackedStream
import HuffmanCoding.Warning

/-!
# Updates and sequence codecs

An update changes a codec, may report warnings, and may fail; the codec that it leaves behind is
there in either case, so it can be said of every update what remains after a failure.

A sequence codec encodes and decodes sequences of symbols of one type. Whether it learns is up to
the codec: one that does not keeps the default for `train`.
-/

set_option autoImplicit false
set_option relaxedAutoImplicit false

namespace HuffmanCoding

/-- A codec and the warnings reported while it was updated. -/
structure Monitored (C : Type) where
  codec : C
  log : WarningLog

/-- A computation that updates a codec. -/
abbrev Update (C α : Type) := EStateM Error (Monitored C) α

namespace Update

variable {C P α : Type}

def codec : Update C C := do
  return (← get).codec

/-- Puts another codec in the place of the one there is. -/
def replace (codec : C) : Update C Unit :=
  modify fun monitored ↦ { monitored with codec }

/-- Continues with the value of a computation, or stops with its error. -/
def ofExcept (result : Except Error α) : Update C α :=
  match result with
  | .ok value => pure value
  | .error error => throw error

/-- Runs a computation that leaves the codec alone, and keeps its warnings. -/
def hearing (computation : Logged α) : Update C α := fun monitored ↦
  match computation.run monitored.log with
  | .ok value log => .ok value { monitored with log }
  | .error error log => .error error { monitored with log }

def onPart (part : C → P) (putPart : C → P → C) (update : Update P α) : Update C α :=
  fun monitored ↦
    match update.run ⟨part monitored.codec, monitored.log⟩ with
    | .ok value left => .ok value ⟨putPart monitored.codec left.codec, left.log⟩
    | .error error left => .error error ⟨putPart monitored.codec left.codec, left.log⟩

/-- The result of an update of a codec, and what it leaves behind. -/
def perform (update : Update C α) (codec : C) : Except Error α × Monitored C :=
  match update.run ⟨codec, []⟩ with
  | .ok value left => (.ok value, left)
  | .error error left => (.error error, left)

end Update

/-- A codec for sequences of symbols of one type. -/
class SequenceCodec (C : Type) (S : outParam Type) where
  kind : C → CodecKind
  train : S → Update C Unit := fun _ ↦ do
    throw (.unsupported (.training (kind (← Update.codec))))
  encode : C → List S → Except Error PackedStream
  decode : C → PackedStream → Except Error (List S)

namespace SequenceCodec

variable {C S : Type} [SequenceCodec C S]

/-- Counts one occurrence of each symbol in a sequence, up to the first one that is refused. -/
def trainAll (symbols : List S) : Update C Unit :=
  symbols.forM train

def roundTrips [BEq S] (codec : C) (symbols : List S) : Except Error Bool := do
  let stream ← encode codec symbols
  let decoded ← decode codec stream
  return decoded == symbols

end SequenceCodec

end HuffmanCoding
