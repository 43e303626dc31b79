import HuffmanCoding.Error

/-!
# Warnings

Building a codec falls back where it can instead of failing, and each fallback is reported. A
computation that may report is a `Logged` one: the warnings are the state that it leaves behind,
also when it fails.
-/

set_option autoImplicit false
set_option relaxedAutoImplicit false

namespace HuffmanCoding

/-- A fallback that was taken. -/
inductive Warning where
  | boundWidened (tokens needed bound : Nat)
  | loneToken
  | depthLimited (depth bound longest : Nat)
  | windowWidened (longest width : Nat)
  | allTextsRare (cutoff texts : Nat)
  | described (text : String)
  deriving DecidableEq, Repr

def Warning.message : Warning → String
  | .boundWidened tokens needed bound =>
    s!"alphabet of {tokens} tokens needs {needed}-bit codes, widening bound from {bound}"
  | .loneToken => "single-token alphabet, root is a lone leaf with a one-bit code"
  | .depthLimited depth bound longest =>
    s!"huffman tree depth {depth} exceeds bound {bound}, limited to {longest}"
  | .windowWidened longest width =>
    s!"longest code is {longest} bits, widening decode window from {width}"
  | .allTextsRare cutoff texts =>
    s!"no string reached frequency {cutoff}, keeping all {texts} strings"
  | .described text => text

/-- The warnings received so far, oldest first. -/
abbrev WarningLog := List Warning

/-- A computation that may report warnings and may fail. -/
abbrev Logged (α : Type) := EStateM Error WarningLog α

namespace Logged

def warn (warning : Warning) : Logged Unit :=
  modify (· ++ [warning])

def warnIf (condition : Bool) (warning : Warning) : Logged Unit :=
  if condition then warn warning else pure ()

/-- A computation that reports nothing. -/
def ofExcept {α : Type} (result : Except Error α) : Logged α :=
  match result with
  | .ok value => pure value
  | .error error => throw error

/-- The result of a computation and the warnings that it reported. -/
def listen {α : Type} (computation : Logged α) : Except Error α × WarningLog :=
  match computation.run [] with
  | .ok value log => (.ok value, log)
  | .error error log => (.error error, log)

/-- The result of a computation whose warnings nobody hears. -/
def unheard {α : Type} (computation : Logged α) : Except Error α :=
  computation.listen.1

end Logged

end HuffmanCoding
