import HuffmanCoding.PackedStream
import HuffmanCoding.Proofs.Outcome
import HuffmanCoding.Proofs.Reading

/-!
# Reading a stream back

If a reader gives each item back and no item is written without bits, then reading the stream of the
items yields them and ends exactly at the recorded end (`decodeItems_ofBits`). Items without bits
would not do, since a reader that stands at the end does not look for more items.
-/

set_option autoImplicit false
set_option relaxedAutoImplicit false

namespace HuffmanCoding.PackedStream

variable {α : Type} {read : Reading α}

/-- A piece of a stream has a bit, and the reader gives the item for it. -/
def Spells (read : Reading α) (piece : Bits) (item : α) : Prop :=
  piece ≠ [] ∧ read.Gives piece item

/-- In front of a piece the end is not reached. -/
theorem Spells.gives_readItem {piece : Bits} {item : α} (h : Spells read piece item)
    (count index : ℕ) : Reading.Gives (readItem read count index) piece item := by
  intro cursor rest hcursor
  have hleft : ¬ cursor.isAtEnd = true := by
    have hpos := List.length_pos_of_ne_nil h.1
    have hle := BitCursor.le_remaining hcursor
    rw [BitCursor.isAtEnd, beq_iff_eq]
    omega
  show (if cursor.isAtEnd then Reading.fail (.endedEarly index count) cursor.position
    else Reading.item read : Reading α).run cursor = _
  rw [if_neg hleft]
  exact h.2 cursor rest hcursor

/-- Items that take a bit or more each are no more than the bits. -/
theorem length_le_of_spells {pieces : List Bits} {items : List α}
    (h : List.Forall₂ (Spells read) pieces items) : items.length ≤ pieces.flatten.length := by
  induction h with
  | nil => exact Nat.zero_le _
  | @cons piece item pieces items hfirst _ ih =>
    have hpos := List.length_pos_of_ne_nil hfirst.1
    rw [List.flatten_cons, List.length_append, List.length_cons]
    omega

/-- The items of a sequence of pieces are read, and then the end is reached. -/
theorem run_readItems {pieces : List Bits} {items : List α}
    (h : List.Forall₂ (Spells read) pieces items) {cursor : BitCursor}
    (hcursor : cursor.upcoming = pieces.flatten) :
    (readItems read items.length).run cursor = .ok items (cursor.drop pieces.flatten.length) := by
  have hread : Reading.Gives (Reading.items items.length (readItem read items.length))
      pieces.flatten items :=
    Reading.gives_items (h.imp fun _ _ hspells ↦ hspells.gives_readItem items.length)
  have hend : (cursor.drop pieces.flatten.length).isAtEnd = true := by
    rw [BitCursor.isAtEnd, beq_iff_eq]
    show cursor.remaining - _ = 0
    rw [cursor.remaining_eq, hcursor, Nat.sub_self]
  unfold readItems
  rw [EStateM.run_bind, hread cursor [] (by rw [List.append_nil, hcursor])]
  show (if (cursor.drop pieces.flatten.length).isAtEnd then pure items
    else _ : Reading (List α)).run _ = _
  rw [if_pos hend]
  rfl

/-- The bytes of a stream are opened at its first bit. -/
theorem ofBytes_ofBits (bits : Bits) (count : ℕ) :
    BitCursor.ofBytes (ofBits bits count).bytes (ofBits bits count).bitLength =
      .ok (BitCursor.ofBits bits) := by
  have henough : ¬ (Bits.toBytes bits).length * 8 < bits.length := by
    rw [Bits.length_toBytes]
    omega
  show (if (Bits.toBytes bits).length * 8 < bits.length then _
    else Except.ok (BitCursor.ofBits ((Bits.ofBytes (Bits.toBytes bits)).take bits.length))) = _
  rw [if_neg henough, Bits.take_ofBytes_toBytes]

/-- Items that are written with a bit or more and read back each are read back from the stream. -/
theorem decodeItems_ofBits {pieces : List Bits} {items : List α}
    (h : List.Forall₂ (Spells read) pieces items) :
    decodeItems read (ofBits pieces.flatten items.length) = .ok items := by
  refine Outcome.bind_eq_ok_iff.mpr ⟨_, ofBytes_ofBits _ _, ?_⟩
  exact Reading.outcome_eq_ok_iff.mpr ⟨_, run_readItems h rfl⟩

end HuffmanCoding.PackedStream
