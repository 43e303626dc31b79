import HuffmanCoding.Proofs.Mirroring

/-!
# Counting the items that are read

How many items a reader begins does not show in what it yields. So there is a source that keeps a
tally beside a cursor and counts each item that begins. Its primitive operations mirror those on the
cursor (`Tally.isView_cursor`), so all readers do, and a stream is decoded to the same items
(`PackedStream.tallyItems_fst`).
-/

set_option autoImplicit false
set_option relaxedAutoImplicit false

namespace HuffmanCoding

/-- A cursor and the number of items begun so far. -/
structure Tally where
  cursor : BitCursor
  begun : ℕ

/-- A computation that reads bits and counts the items that it begins. -/
abbrev Tallying (α : Type) := EStateM Error Tally α

/-- Reads without beginning an item. -/
def Tallying.part {α : Type} (read : Reading α) : Tallying α := fun tally ↦
  match read.run tally.cursor with
  | .ok value left => .ok value ⟨left, tally.begun⟩
  | .error error left => .error error ⟨left, tally.begun⟩

instance : BitInput Tallying where
  position := .part Reading.position
  remaining := .part Reading.remaining
  isAtEnd := .part Reading.isAtEnd
  peek width := .part (Reading.peek width)
  skip width := .part (Reading.skip width)
  beginItem := modify fun tally ↦ { tally with begun := tally.begun + 1 }
  fail fault offset := .part (Reading.fail fault offset)

/-- Without the tally, reading goes on as it does. -/
theorem Tallying.mirrors_part {α : Type} (read : Reading α) :
    Mirrors Tally.cursor (part read) read := by
  intro tally
  show seenThrough _ (part read tally) = _
  unfold part
  cases read.run tally.cursor with
  | ok value left => rfl
  | error error left => rfl

/-- A tally shows its cursor, and windows of any width in it. -/
theorem Tally.isView_cursor {width : ℕ} (h : 32 ≤ width) : IsView cursor width where
  wide := h
  position := Tallying.mirrors_part _
  remaining := Tallying.mirrors_part _
  isAtEnd := Tallying.mirrors_part _
  peek _ _ := Tallying.mirrors_part _
  skip _ := Tallying.mirrors_part _
  beginItem _ := rfl
  fail _ _ := Tallying.mirrors_part _

namespace PackedStream

variable {α : Type}

/-- Reads the recorded number of items from a stream, and tells how many items were begun. -/
def tallyItems (read : Tallying α) (stream : PackedStream) : Except Error (List α) × ℕ :=
  match BitCursor.ofBytes stream.bytes stream.bitLength with
  | .error error => (.error error, 0)
  | .ok cursor =>
    match (readItems read stream.symbolCount).run ⟨cursor, 0⟩ with
    | .ok items left => (.ok items, left.begun)
    | .error error left => (.error error, left.begun)

/-- Without the tally, items are decoded as they are. -/
theorem tallyItems_fst {tallying : Tallying α} {read : Reading α}
    (h : Mirrors Tally.cursor tallying read) (stream : PackedStream) :
    (stream.tallyItems tallying).1 = stream.decodeItems read := by
  unfold tallyItems decodeItems
  cases BitCursor.ofBytes stream.bytes stream.bitLength with
  | error error => rfl
  | ok cursor =>
    have hitems := (Tally.isView_cursor (Nat.le_refl 32)).readItems h stream.symbolCount
    refine Eq.trans ?_ (hitems.outcome_eq ⟨cursor, 0⟩)
    dsimp only
    unfold Reading.outcome
    cases (readItems tallying stream.symbolCount).run ⟨cursor, 0⟩ <;> rfl

end PackedStream

end HuffmanCoding
