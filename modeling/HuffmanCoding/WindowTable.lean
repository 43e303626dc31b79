import HuffmanCoding.Codeword
import HuffmanCoding.Error

/-!
# Window tables

A window is the number that the next few bits of a stream spell. A window table has one slot for
each window of its width, and the slot names the codeword that begins the window. A codeword of
length `l` begins 2^(width - l) consecutive windows. Slots that no codeword begins stay vacant.
-/

set_option autoImplicit false
set_option relaxedAutoImplicit false

namespace HuffmanCoding

/-- What a window table knows about one window: the number and the length of the codeword that
begins it. The length is zero if no codeword does. -/
structure WindowSlot where
  token : UInt32
  length : UInt8
  deriving DecidableEq, Repr

/-- The slot of a window that no codeword begins. -/
def WindowSlot.vacant : WindowSlot := ⟨0, 0⟩

def WindowSlot.isTaken (slot : WindowSlot) : Bool :=
  0 < slot.length

/-- Slots for all windows of one width. -/
structure WindowTable where
  width : UInt8
  slots : Array WindowSlot
  deriving DecidableEq

namespace WindowTable

/-- Puts one slot into `count` consecutive windows from `window` on, which all have to be vacant. -/
def occupy (slot : WindowSlot) : (count window : Nat) → Array WindowSlot →
    Except Error (Array WindowSlot)
  | 0, _, slots => .ok slots
  | count + 1, window, slots =>
    if (slots.getD window .vacant).isTaken then .error (.notPrefixFree "overlapping codes")
    else occupy slot count (window + 1) (slots.setIfInBounds window slot)

/-- Puts a codeword into all windows of the given width that it begins. It has to have at least one
bit, no more bits than a window, and no digit set above its length. -/
def enter (width : UInt8) (slots : Array WindowSlot) (codeword : Codeword) (token : Nat) :
    Except Error (Array WindowSlot) :=
  let length := codeword.length.toNat
  if length = 0 ∨ width.toNat < length ∨ codeword.bits.toNat >>> length ≠ 0 then
    .error (.invalidConfig (.codewordOutsideWindow length width.toNat))
  else
    let spare := width.toNat - length
    occupy ⟨UInt32.ofNat token, codeword.length⟩ (1 <<< spare) (codeword.bits.toNat <<< spare) slots

/-- The table for a list of codewords; a slot names a codeword by its place in the list. -/
def build (codewords : List Codeword) (width : UInt8) : Except Error WindowTable := do
  let vacant := Array.replicate (1 <<< width.toNat) WindowSlot.vacant
  let slots ← codewords.zipIdx.foldlM
    (fun slots (codeword, token) ↦ enter width slots codeword token) vacant
  return ⟨width, slots⟩

/-- The slot of a window, which is vacant if the table has none for it. -/
def lookup (table : WindowTable) (window : Nat) : WindowSlot :=
  table.slots.getD window .vacant

def size (table : WindowTable) : Nat :=
  table.slots.size

def takenCount (table : WindowTable) : Nat :=
  table.slots.countP (·.isTaken)

end WindowTable

end HuffmanCoding
