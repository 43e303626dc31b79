import HuffmanCoding.Proofs.StreamContent
import HuffmanCoding.Proofs.Tally
import HuffmanCoding.Proofs.WindowDecoder

/-!
# Reading with care

A tallying reader is careful (`Tallying.Careful`) if it keeps to the recorded end of the stream,
reports nothing but faults of the stream at places up to this end, and passes a bit for each item
that it begins. Fields and codewords begin no item and pass their bits (`careful_bits`,
`careful_readToken`). A loop over items is paid for item by item, but for the one that fails
(`careful_items`), and where a number stands in front of the items its own bits pay for that one
(`careful_counted`). So the numbers that a stream claims do not matter, and a stream whose items are
read carefully is decoded safely (`PackedStream.isSafe_decodeItems`).
-/

set_option autoImplicit false
set_option relaxedAutoImplicit false

namespace HuffmanCoding

/-- The recorded end of the sequence that the cursor stands in. -/
def BitCursor.finish (cursor : BitCursor) : ℕ :=
  cursor.position + cursor.remaining

/-- A fault of the stream, at a place up to its end. -/
def Error.IsWithin (error : Error) (finish : ℕ) : Prop :=
  ∃ fault offset, error = .malformed fault offset ∧ offset ≤ finish

/-- Moving on does not move the end. -/
theorem BitCursor.finish_drop (cursor : BitCursor) (count : ℕ) :
    (cursor.drop count).finish = cursor.finish := by
  show cursor.position + min count cursor.remaining + (cursor.remaining - count) =
    cursor.position + cursor.remaining
  omega

theorem BitCursor.position_le_finish (cursor : BitCursor) : cursor.position ≤ cursor.finish :=
  Nat.le_add_right _ _

theorem BitCursor.remaining_drop (cursor : BitCursor) (count : ℕ) :
    (cursor.drop count).remaining = cursor.remaining - count :=
  rfl

namespace Tallying

variable {α β : Type} {finish spare owed : ℕ} {tallying : Tallying α}

/-- In a sequence that ends at `finish`, the reader keeps to the end and reports nothing but faults
of the stream up to the end. If it yields a value, it has passed a bit for each item that it began
and `spare` bits besides. If it fails, it began at most `owed` items more than there were bits, or,
where bits are to be spared, as many fewer. -/
structure Careful (finish spare owed : ℕ) (tallying : Tallying α) : Prop where
  of_ok : ∀ ⦃tally value left⦄, tally.cursor.finish = finish →
    tallying.run tally = .ok value left → left.cursor.finish = finish ∧ tally.begun ≤ left.begun ∧
      left.begun + left.cursor.remaining + spare ≤ tally.begun + tally.cursor.remaining
  of_error : ∀ ⦃tally error left⦄, tally.cursor.finish = finish →
    tallying.run tally = .error error left → error.IsWithin finish ∧
      left.begun ≤ tally.begun + (tally.cursor.remaining + owed - spare)

theorem Careful.mono (h : tallying.Careful finish spare owed) {less more : ℕ} (hless : less ≤ spare)
    (hmore : owed + less ≤ more + spare) : tallying.Careful finish less more where
  of_ok := by
    intro tally value left hfinish hrun
    obtain ⟨hkept, hbegun, hpaid⟩ := h.of_ok hfinish hrun
    exact ⟨hkept, hbegun, by omega⟩
  of_error := by
    intro tally error left hfinish hrun
    obtain ⟨hwithin, hpaid⟩ := h.of_error hfinish hrun
    exact ⟨hwithin, by omega⟩

/-- A plain reader is careful if it passes enough bits. -/
theorem careful_part (read : Reading α)
    (hok : ∀ ⦃cursor value left⦄, read.run cursor = .ok value left →
      left.finish = cursor.finish ∧ left.remaining + spare ≤ cursor.remaining)
    (herror : ∀ ⦃cursor error left⦄, read.run cursor = .error error left →
      error.IsWithin cursor.finish) : (part read).Careful finish spare owed where
  of_ok := by
    intro tally value left hfinish hrun
    change part read tally = _ at hrun
    unfold part at hrun
    cases hread : read.run tally.cursor with
    | error error middle =>
      rw [hread] at hrun
      cases hrun
    | ok result middle =>
      rw [hread] at hrun
      cases hrun
      obtain ⟨hkept, hpassed⟩ := hok hread
      exact ⟨hkept.trans hfinish, le_rfl, by dsimp only; omega⟩
  of_error := by
    intro tally error left hfinish hrun
    change part read tally = _ at hrun
    unfold part at hrun
    cases hread : read.run tally.cursor with
    | ok result middle =>
      rw [hread] at hrun
      cases hrun
    | error fault middle =>
      rw [hread] at hrun
      cases hrun
      exact ⟨hfinish ▸ herror hread, Nat.le_add_right _ _⟩

theorem careful_pure (value : α) : Careful finish 0 owed (pure value : Tallying α) where
  of_ok := by
    intro tally result left hfinish hrun
    rw [EStateM.run_pure] at hrun
    cases hrun
    exact ⟨hfinish, le_rfl, le_rfl⟩
  of_error := by
    intro tally error left _ hrun
    rw [EStateM.run_pure] at hrun
    cases hrun

theorem careful_fail {fault : StreamFault} {offset : ℕ} (h : offset ≤ finish) :
    (Reading.fail fault offset : Tallying α).Careful finish spare owed where
  of_ok := by
    intro tally value left _ hrun
    cases hrun
  of_error := by
    intro tally error left _ hrun
    cases hrun
    exact ⟨⟨fault, offset, rfl, h⟩, Nat.le_add_right _ _⟩

/-- What is spared by the first reader is still spared after the next one. -/
theorem Careful.bind {first : Tallying α} {next : α → Tallying β}
    (hfirst : first.Careful finish spare owed)
    (hnext : ∀ value, (next value).Careful finish 0 owed) :
    (first >>= next).Careful finish spare owed where
  of_ok := by
    intro tally result left hfinish hrun
    rw [EStateM.run_bind] at hrun
    cases hvalue : first.run tally with
    | error error middle =>
      rw [hvalue] at hrun
      cases hrun
    | ok value middle =>
      rw [hvalue] at hrun
      obtain ⟨hmiddle, hbegun, hpaid⟩ := hfirst.of_ok hfinish hvalue
      obtain ⟨hleft, hbegunNext, hpaidNext⟩ := (hnext value).of_ok hmiddle hrun
      exact ⟨hleft, hbegun.trans hbegunNext, by omega⟩
  of_error := by
    intro tally error left hfinish hrun
    rw [EStateM.run_bind] at hrun
    cases hvalue : first.run tally with
    | error fault middle =>
      rw [hvalue] at hrun
      cases hrun
      exact hfirst.of_error hfinish hvalue
    | ok value middle =>
      rw [hvalue] at hrun
      obtain ⟨hmiddle, _, hpaid⟩ := hfirst.of_ok hfinish hvalue
      obtain ⟨hwithin, hpaidNext⟩ := (hnext value).of_error hmiddle hrun
      exact ⟨hwithin, by omega⟩

/-- The position is one up to the end. -/
theorem careful_of_position {next : ℕ → Tallying α}
    (h : ∀ start ≤ finish, (next start).Careful finish spare owed) :
    (Reading.position >>= next).Careful finish spare owed where
  of_ok := by
    intro tally value left hfinish hrun
    have hstart : tally.cursor.position ≤ finish := hfinish ▸ tally.cursor.position_le_finish
    exact (h _ hstart).of_ok hfinish hrun
  of_error := by
    intro tally error left hfinish hrun
    have hstart : tally.cursor.position ≤ finish := hfinish ▸ tally.cursor.position_le_finish
    exact (h _ hstart).of_error hfinish hrun

/-- Looking at the source does no harm, whatever is seen. -/
theorem careful_of_part (look : Reading β) {seen : BitCursor → β}
    (hlook : ∀ cursor, look.run cursor = .ok (seen cursor) cursor) {next : β → Tallying α}
    (h : ∀ value, (next value).Careful finish spare owed) :
    (part look >>= next).Careful finish spare owed := by
  have hrun (tally : Tally) :
      (part look >>= next).run tally = (next (seen tally.cursor)).run tally := by
    have hpart : (part look).run tally = .ok (seen tally.cursor) tally := by
      show part look tally = _
      rw [part, hlook]
    rw [EStateM.run_bind, hpart]
  exact ⟨fun tally _ _ hfinish hleft ↦ (h _).of_ok hfinish (hrun tally ▸ hleft),
    fun tally _ _ hfinish hleft ↦ (h _).of_error hfinish (hrun tally ▸ hleft)⟩

theorem careful_of_remaining {next : ℕ → Tallying α}
    (h : ∀ left, (next left).Careful finish spare owed) :
    (Reading.remaining >>= next).Careful finish spare owed :=
  careful_of_part Reading.remaining (fun _ ↦ rfl) h

theorem careful_of_isAtEnd {next : Bool → Tallying α}
    (h : ∀ ended, (next ended).Careful finish spare owed) :
    (Reading.isAtEnd >>= next).Careful finish spare owed :=
  careful_of_part Reading.isAtEnd (fun _ ↦ rfl) h

theorem careful_of_peek {width : ℕ} {next : ℕ → Tallying α}
    (h : ∀ value, (next value).Careful finish spare owed) :
    (Reading.peek width >>= next).Careful finish spare owed :=
  careful_of_part (Reading.peek width) (fun _ ↦ rfl) h

/-! ### Fields and codewords -/

/-- Passing a field passes its bits. -/
theorem careful_skip (width : ℕ) :
    (Reading.skip width : Tallying Unit).Careful finish width owed := by
  refine careful_part (Reading.skip width) ?_ ?_
  · intro cursor value left hrun
    rw [Reading.run_skip] at hrun
    by_cases hshort : cursor.remaining < width
    · rw [if_pos hshort] at hrun
      cases hrun
    · rw [if_neg hshort] at hrun
      cases hrun
      refine ⟨cursor.finish_drop width, ?_⟩
      rw [BitCursor.remaining_drop, Nat.sub_add_cancel (Nat.le_of_not_lt hshort)]
  · intro cursor error left hrun
    rw [Reading.run_skip] at hrun
    by_cases hshort : cursor.remaining < width
    · rw [if_pos hshort] at hrun
      cases hrun
      exact ⟨_, _, rfl, cursor.position_le_finish⟩
    · rw [if_neg hshort] at hrun
      cases hrun

theorem careful_bits (width : ℕ) : (Reading.bits width : Tallying ℕ).Careful finish width owed :=
  careful_of_peek fun value ↦ (careful_skip width).bind fun _ ↦ careful_pure value

/-- A number has one group or more. -/
theorem careful_numberFrom {start : ℕ} (h : start ≤ finish) (allowed digits low : ℕ) :
    (Reading.numberFrom start allowed digits low : Tallying ℕ).Careful finish 8 owed := by
  induction allowed generalizing digits low with
  | zero => exact (careful_bits 8).bind fun _ ↦ careful_fail h
  | succ allowed ih =>
    refine (careful_bits 8).bind fun group ↦ ?_
    dsimp only
    by_cases hlarge : UInt64.size ≤ low + (group % 128) <<< digits
    · rw [if_pos hlarge]
      exact careful_fail h
    · rw [if_neg hlarge]
      by_cases hlast : group < 128
      · rw [if_pos hlast]
        exact careful_pure _
      · rw [if_neg hlast]
        exact (ih _ _).mono (Nat.zero_le 8) (Nat.le_add_right _ _)

theorem careful_number : (Reading.number : Tallying ℕ).Careful finish 8 owed :=
  careful_of_position fun _ hstart ↦ careful_numberFrom hstart 10 0 0

theorem careful_character :
    (Reading.character : Tallying Char).Careful finish characterBits owed := by
  refine careful_of_position fun start hstart ↦ (careful_bits characterBits).bind fun value ↦ ?_
  by_cases hvalid : value.isValidChar
  · rw [dif_pos hvalid]
    exact careful_pure _
  · rw [dif_neg hvalid]
    exact careful_fail hstart

/-- A codeword has a bit or more, since the slots of a table without one are not taken. -/
theorem careful_readToken {S : Type} (decoder : WindowDecoder S) :
    (decoder.readToken : Tallying (Token S)).Careful finish 1 owed := by
  refine careful_of_position fun place hplace ↦ careful_of_remaining fun left ↦
    careful_of_peek fun window ↦ ?_
  cases htaken : (decoder.table.lookup window).isTaken with
  | false =>
    rw [if_pos (by rw [htaken]; rfl)]
    exact careful_fail hplace
  | true =>
    have hpos : 1 ≤ (decoder.table.lookup window).length.toNat := by
      rw [WindowSlot.isTaken, decide_eq_true_eq, UInt8.lt_iff_toNat_lt] at htaken
      exact htaken
    rw [if_neg (by rw [htaken]; decide)]
    by_cases hpast : left < (decoder.table.lookup window).length.toNat
    · rw [if_pos hpast]
      exact careful_fail hplace
    · rw [if_neg hpast]
      refine Careful.bind ((careful_skip _).mono hpos (Nat.add_le_add_left hpos _)) fun _ ↦ ?_
      cases decoder.tokens[(decoder.table.lookup window).token.toNat]? with
      | some token => exact careful_pure token
      | none => exact careful_fail hplace

/-- A symbol has a bit or more. -/
theorem careful_readSymbol {S : Type} (decoder : WindowDecoder S) {literal : Tallying S}
    (h : literal.Careful finish 0 owed) : (decoder.readSymbol literal).Careful finish 1 owed := by
  refine (careful_readToken decoder).bind fun token ↦ ?_
  cases token with
  | escape => exact h
  | symbol symbol => exact careful_pure symbol

/-! ### Items -/

/-- An item that passes a bit pays for itself, and for one that fails a bit is owed. -/
theorem Careful.item (h : tallying.Careful finish 1 0) :
    Careful finish 0 1 (Reading.item tallying) where
  of_ok := by
    intro tally value left hfinish hrun
    obtain ⟨hkept, hbegun, hpaid⟩ :=
      @h.of_ok ⟨tally.cursor, tally.begun + 1⟩ value left hfinish hrun
    dsimp only at hbegun hpaid
    exact ⟨hkept, by omega, by omega⟩
  of_error := by
    intro tally error left hfinish hrun
    obtain ⟨hwithin, hpaid⟩ :=
      @h.of_error ⟨tally.cursor, tally.begun + 1⟩ error left hfinish hrun
    dsimp only at hpaid
    exact ⟨hwithin, by omega⟩

theorem careful_itemsAfter {read : ℕ → Tallying α} (h : ∀ index, (read index).Careful finish 0 owed)
    (count : ℕ) (found : List α) (index : ℕ) :
    Careful finish 0 owed (Reading.itemsAfter read count found index) := by
  induction count generalizing found index with
  | zero => exact careful_pure _
  | succ count ih => exact (h index).bind fun next ↦ ih (next :: found) (index + 1)

/-- Items that are read with care each are read with care together, however many there are. -/
theorem careful_items {read : ℕ → Tallying α} (h : ∀ index, (read index).Careful finish 0 owed)
    (count : ℕ) : Careful finish 0 owed (Reading.items count read) :=
  careful_itemsAfter h count [] 0

/-- The bits of a number pay for the item behind it that fails. -/
theorem careful_counted {fault : ℕ → StreamFault} {next : ℕ → Tallying α}
    (h : ∀ count, (next count).Careful finish 0 1) :
    Careful finish 7 0 (Reading.counted fault next) := by
  have hcounted : Careful finish 8 1 (Reading.counted fault next) := by
    refine careful_of_position fun start hstart ↦ careful_number.bind fun count ↦ ?_
    refine careful_of_remaining fun left ↦ ?_
    by_cases hshort : left < count
    · rw [if_pos hshort]
      exact careful_fail hstart
    · rw [if_neg hshort]
      exact h count
  exact hcounted.mono (by decide) (by decide)

/-! ### Literals of texts -/

/-- Each byte is an item. -/
theorem careful_eachByte (size : ℕ) :
    (Reading.eachByte size : Tallying (List UInt8)).Careful finish 0 1 := by
  have hbyte : (Reading.bits 8 : Tallying ℕ).Careful finish 8 0 := careful_bits 8
  induction size with
  | zero => exact careful_pure []
  | succ size ih =>
    exact (hbyte.mono (by decide) (by decide)).item.bind fun _ ↦ ih.bind fun _ ↦ careful_pure _

theorem careful_bytes (size : ℕ) :
    (Reading.bytes size : Tallying (List UInt8)).Careful finish 0 1 := by
  refine careful_of_position fun start hstart ↦ careful_of_remaining fun left ↦ ?_
  by_cases hshort : left < size * 8
  · rw [if_pos hshort]
    exact careful_fail hstart
  · rw [if_neg hshort]
    exact careful_eachByte size

/-- The bits of the size pay for a byte that fails. -/
theorem careful_text : (Reading.text : Tallying String).Careful finish 7 0 := by
  have htext : (Reading.text : Tallying String).Careful finish 8 1 := by
    refine careful_of_position fun start hstart ↦ careful_number.bind fun size ↦
      (careful_bytes size).bind fun data ↦ ?_
    cases Utf8.decode data with
    | ok content => exact careful_pure content
    | error fault => exact careful_fail hstart
  exact htext.mono (by decide) (by decide)

/-! ### Numbers of items -/

/-- There are as many items as were asked for, and each of them was begun. -/
theorem length_of_itemsAfter {read : ℕ → Tallying α}
    (h : ∀ index, (read index).Careful finish 0 owed)
    (hbegins : ∀ index, ∀ ⦃tally value left⦄, tally.cursor.finish = finish →
      (read index).run tally = .ok value left → tally.begun < left.begun)
    {count index : ℕ} {found values : List α} {tally left : Tally}
    (hfinish : tally.cursor.finish = finish)
    (hrun : (Reading.itemsAfter read count found index).run tally = .ok values left) :
    values.length = found.length + count ∧ tally.begun + count ≤ left.begun := by
  induction count generalizing found index tally with
  | zero =>
    rw [Reading.itemsAfter, EStateM.run_pure] at hrun
    cases hrun
    exact ⟨List.length_reverse, le_rfl⟩
  | succ count ih =>
    rw [Reading.itemsAfter, EStateM.run_bind] at hrun
    cases hvalue : (read index).run tally with
    | error error middle =>
      rw [hvalue] at hrun
      cases hrun
    | ok value middle =>
      rw [hvalue] at hrun
      have hbegun := hbegins index hfinish hvalue
      obtain ⟨hlength, hrest⟩ := ih ((h index).of_ok hfinish hvalue).1 hrun
      rw [List.length_cons] at hlength
      exact ⟨by omega, by omega⟩

end Tallying

/-! ### Streams -/

namespace PackedStream

variable {α : Type} {finish : ℕ} {tallying : Tallying α}

theorem run_readItem (count index : ℕ) (tally : Tally) :
    (readItem tallying count index).run tally =
      (if tally.cursor.isAtEnd then Reading.fail (.endedEarly index count) tally.cursor.position
      else Reading.item tallying).run tally :=
  rfl

/-- An item of a stream that passes a bit pays for itself, also where it fails, since it is not
begun at the end. -/
theorem careful_readItem (h : tallying.Careful finish 1 0) (count index : ℕ) :
    (readItem tallying count index).Careful finish 0 0 where
  of_ok := by
    intro tally value left hfinish hrun
    rw [run_readItem] at hrun
    by_cases hend : tally.cursor.isAtEnd = true
    · rw [if_pos hend] at hrun
      cases hrun
    · rw [if_neg hend] at hrun
      exact h.item.of_ok hfinish hrun
  of_error := by
    intro tally error left hfinish hrun
    rw [run_readItem] at hrun
    by_cases hend : tally.cursor.isAtEnd = true
    · rw [if_pos hend] at hrun
      cases hrun
      exact ⟨⟨_, _, rfl, hfinish ▸ tally.cursor.position_le_finish⟩, Nat.le_add_right _ _⟩
    · rw [if_neg hend] at hrun
      obtain ⟨hwithin, hpaid⟩ :=
        @h.of_error ⟨tally.cursor, tally.begun + 1⟩ error left hfinish hrun
      rw [BitCursor.isAtEnd, beq_iff_eq] at hend
      dsimp only at hpaid
      exact ⟨hwithin, by omega⟩

/-- An item of a stream that is yielded was begun. -/
theorem lt_of_run_readItem (h : tallying.Careful finish 1 0) {count index : ℕ}
    {tally left : Tally} {value : α} (hfinish : tally.cursor.finish = finish)
    (hrun : (readItem tallying count index).run tally = .ok value left) :
    tally.begun < left.begun := by
  rw [run_readItem] at hrun
  by_cases hend : tally.cursor.isAtEnd = true
  · rw [if_pos hend] at hrun
    cases hrun
  · rw [if_neg hend] at hrun
    exact (@h.of_ok ⟨tally.cursor, tally.begun + 1⟩ value left hfinish hrun).2.1

/-- Where the items of a stream are read, there are as many as recorded, and each was begun. -/
theorem length_of_readItems (h : tallying.Careful finish 1 0) {count : ℕ} {items : List α}
    {tally left : Tally} (hfinish : tally.cursor.finish = finish)
    (hrun : (readItems tallying count).run tally = .ok items left) :
    items.length = count ∧ tally.begun + count ≤ left.begun := by
  unfold readItems at hrun
  rw [EStateM.run_bind] at hrun
  cases hitems : (Reading.items count (readItem tallying count)).run tally with
  | error error middle =>
    rw [hitems] at hrun
    cases hrun
  | ok values middle =>
    rw [hitems] at hrun
    have hcases : (if middle.cursor.isAtEnd then pure values
        else Reading.fail (.bitsLeft middle.cursor.remaining count)
          middle.cursor.position : Tallying (List α)).run middle = .ok items left := hrun
    by_cases hend : middle.cursor.isAtEnd = true
    · rw [if_pos hend] at hcases
      cases hcases
      have hlength := Tallying.length_of_itemsAfter (careful_readItem h count)
        (fun index _ _ _ hfinish hrun ↦ lt_of_run_readItem h hfinish hrun) hfinish hitems
      rwa [List.length_nil, Nat.zero_add] at hlength
    · rw [if_neg hend] at hcases
      cases hcases

/-- The items of a stream are read with care, and so is the end. -/
theorem careful_readItems (h : tallying.Careful finish 1 0) (count : ℕ) :
    (readItems tallying count).Careful finish 0 0 := by
  refine (Tallying.careful_items (careful_readItem h count) count).bind fun items ↦ ?_
  refine Tallying.careful_of_position fun place hplace ↦ Tallying.careful_of_remaining fun left ↦
    Tallying.careful_of_isAtEnd fun ended ↦ ?_
  cases ended with
  | true => exact Tallying.careful_pure items
  | false => exact Tallying.careful_fail hplace

/-- Decoding a stream yields the recorded number of items, which is no greater than the number of
bits, or stops at a fault of the stream, at a place up to the recorded end. All items that are
decoded were begun, and no more were begun than there are bits. -/
structure IsSafe (stream : PackedStream) (decoded : Except Error (List α)) (begun : ℕ) :
    Prop where
  ok_or_malformed :
    (∃ items, decoded = .ok items ∧ items.length = stream.symbolCount ∧
      stream.symbolCount ≤ stream.bitLength) ∨
    ∃ fault offset, decoded = .error (.malformed fault offset) ∧ offset ≤ stream.bitLength
  length_le_begun : ∀ items, decoded = .ok items → items.length ≤ begun
  begun_le : begun ≤ stream.bitLength

/-- A stream whose items are read with care is decoded safely. -/
theorem isSafe_tallyItems (stream : PackedStream) (h : tallying.Careful stream.bitLength 1 0) :
    stream.IsSafe (stream.tallyItems tallying).1 (stream.tallyItems tallying).2 := by
  unfold tallyItems
  rw [ofBytes_eq]
  by_cases hrange : stream.bitLength ≤ 8 * stream.bytes.length
  · rw [if_pos hrange]
    have hfinish : (BitCursor.ofBits stream.content).finish = stream.bitLength := by
      show 0 + stream.content.length = stream.bitLength
      rw [Nat.zero_add, length_content hrange]
    have hremaining : (BitCursor.ofBits stream.content).remaining = stream.bitLength :=
      length_content hrange
    dsimp only
    cases hrun : (readItems tallying stream.symbolCount).run
        ⟨BitCursor.ofBits stream.content, 0⟩ with
    | ok items left =>
      obtain ⟨hlength, hbegun⟩ := length_of_readItems h hfinish hrun
      obtain ⟨_, _, hpaid⟩ := (careful_readItems h _).of_ok hfinish hrun
      dsimp only at hbegun hpaid
      refine ⟨Or.inl ⟨items, rfl, hlength, by omega⟩, ?_, by dsimp only; omega⟩
      intro others hothers
      cases hothers
      dsimp only
      omega
    | error error left =>
      obtain ⟨⟨fault, offset, rfl, hoffset⟩, hpaid⟩ :=
        (careful_readItems h _).of_error hfinish hrun
      dsimp only at hpaid
      refine ⟨Or.inr ⟨fault, offset, rfl, hoffset⟩, ?_, by dsimp only; omega⟩
      intro others hothers
      cases hothers
  · rw [if_neg hrange]
    refine ⟨Or.inr ⟨_, 0, rfl, Nat.zero_le _⟩, ?_, Nat.zero_le _⟩
    intro others hothers
    cases hothers

/-- Decoding is safe if a tallying reader mirrors the reader of items and reads with care. -/
theorem isSafe_decodeItems (stream : PackedStream) {read : Reading α}
    (hmirrors : Mirrors Tally.cursor tallying read)
    (hcareful : tallying.Careful stream.bitLength 1 0) :
    (stream.tallyItems tallying).1 = stream.decodeItems read ∧
      stream.IsSafe (stream.decodeItems read) (stream.tallyItems tallying).2 := by
  have hsame := tallyItems_fst hmirrors stream
  refine ⟨hsame, ?_⟩
  rw [← hsame]
  exact stream.isSafe_tallyItems hcareful

end PackedStream

end HuffmanCoding
