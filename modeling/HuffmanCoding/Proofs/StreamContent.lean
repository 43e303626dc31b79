import HuffmanCoding.Proofs.Accepting
import HuffmanCoding.Proofs.PackedStream

/-!
# What a stream encodes

A stream encodes some items by a grammar if the recorded number of items is spelled by all of the
recorded bits (`PackedStream.Encodes`). A reader that accepts the grammar decodes exactly the
streams that encode something (`decodeItems_eq_ok_iff`), as long as no item is spelled without
bits: a reader that stands at the end does not look for more items.
-/

set_option autoImplicit false
set_option relaxedAutoImplicit false

namespace HuffmanCoding.PackedStream

variable {α : Type} {read : Reading α} {grammar : Grammar α} {stream : PackedStream}
  {items : List α}

/-- The bits of a stream that count. -/
def content (stream : PackedStream) : Bits :=
  (Bits.ofBytes stream.bytes).take stream.bitLength

/-- The recorded number of items is spelled by all of the bits that count. -/
structure Encodes (stream : PackedStream) (grammar : Grammar α) (items : List α) : Prop where
  count_eq : items.length = stream.symbolCount
  spelled : grammar.sequence stream.content items

/-- The content of a stream begins the bits of its bytes. -/
theorem content_prefix (stream : PackedStream) : stream.content <+: Bits.ofBytes stream.bytes :=
  List.take_prefix _ _

theorem length_content (h : stream.bitLength ≤ 8 * stream.bytes.length) :
    stream.content.length = stream.bitLength := by
  rw [content, List.length_take, Bits.length_ofBytes]
  omega

/-- A stream that packs bits has them as its content. -/
theorem content_ofBits (bits : Bits) (count : ℕ) : (ofBits bits count).content = bits :=
  Bits.take_ofBytes_toBytes bits

/-- A stream that packs bits has bytes for all of them. -/
theorem bitLength_ofBits_le (bits : Bits) (count : ℕ) :
    (ofBits bits count).bitLength ≤ 8 * (ofBits bits count).bytes.length := by
  show bits.length ≤ 8 * (Bits.toBytes bits).length
  rw [Bits.length_toBytes]
  omega

/-- A stream is opened at its content, unless its bytes hold fewer bits than recorded. -/
theorem ofBytes_eq (stream : PackedStream) : BitCursor.ofBytes stream.bytes stream.bitLength =
    if stream.bitLength ≤ 8 * stream.bytes.length then .ok (BitCursor.ofBits stream.content)
    else .error
      (.malformed (.recordedLength stream.bitLength (stream.bytes.length * 8)) 0) := by
  unfold BitCursor.ofBytes content
  dsimp only
  by_cases hrange : stream.bitLength ≤ 8 * stream.bytes.length
  · rw [if_pos hrange, if_neg (by omega)]
  · rw [if_neg hrange, if_pos (by omega)]

theorem obeys_readItem (h : read.Obeys grammar) (count index : ℕ) :
    (readItem read count index).Obeys grammar := by
  intro cursor left value hrun
  have hcases : (if cursor.isAtEnd then Reading.fail (.endedEarly index count) cursor.position
      else Reading.item read : Reading α).run cursor = .ok value left := hrun
  by_cases hend : cursor.isAtEnd = true
  · rw [if_pos hend] at hcases
    cases hcases
  · rw [if_neg hend] at hcases
    exact h hcases

/-- Where items and then the end are read, the items are spelled by all of the bits. -/
theorem sequence_of_readItems (h : read.Obeys grammar) {count : ℕ} {cursor left : BitCursor}
    (hrun : (readItems read count).run cursor = .ok items left) :
    items.length = count ∧ grammar.sequence cursor.upcoming items := by
  unfold readItems at hrun
  rw [EStateM.run_bind] at hrun
  cases hitems : (Reading.items count (readItem read count)).run cursor with
  | error error middle =>
    rw [hitems] at hrun
    cases hrun
  | ok values middle =>
    rw [hitems] at hrun
    obtain ⟨piece, rest, hcursor, ⟨hcount, hvalues⟩, rfl⟩ :=
      Reading.obeys_items (obeys_readItem h count) count hitems
    have hcases : (if (cursor.drop piece.length).isAtEnd then pure values
        else Reading.fail (.bitsLeft (cursor.drop piece.length).remaining count)
          (cursor.drop piece.length).position : Reading (List α)).run
            (cursor.drop piece.length) = .ok items left := hrun
    by_cases hend : (cursor.drop piece.length).isAtEnd = true
    · rw [if_pos hend] at hcases
      cases hcases
      have hrest : rest = [] := by
        rw [BitCursor.isAtEnd, beq_iff_eq, BitCursor.remaining_eq,
          BitCursor.upcoming_drop hcursor] at hend
        exact List.length_eq_zero_iff.mp hend
      rw [hcursor, hrest, List.append_nil]
      exact ⟨hcount, hvalues⟩
    · rw [if_neg hend] at hcases
      cases hcases

/-- What is decoded is encoded by the stream. -/
theorem encodes_of_decodeItems (h : read.Obeys grammar)
    (hdecode : decodeItems read stream = .ok items) :
    stream.bitLength ≤ 8 * stream.bytes.length ∧ stream.Encodes grammar items := by
  obtain ⟨cursor, hcursor, hread⟩ := Outcome.bind_eq_ok_iff.mp hdecode
  rw [ofBytes_eq] at hcursor
  by_cases hrange : stream.bitLength ≤ 8 * stream.bytes.length
  · rw [if_pos hrange] at hcursor
    cases hcursor
    refine ⟨hrange, ?_⟩
    obtain ⟨left, hrun⟩ := Reading.outcome_eq_ok_iff.mp hread
    obtain ⟨hcount, hspelled⟩ := sequence_of_readItems h hrun
    exact ⟨hcount, hspelled⟩
  · rw [if_neg hrange] at hcursor
    cases hcursor

/-- What a stream encodes is decoded. -/
theorem decodeItems_of_encodes (h : read.Accepts grammar) (hbits : grammar.TakesBits)
    (hrange : stream.bitLength ≤ 8 * stream.bytes.length)
    (hencodes : stream.Encodes grammar items) :
    decodeItems read stream = .ok items := by
  obtain ⟨hcount, pieces, hpieces, hcontent⟩ := hencodes
  have hspells : List.Forall₂ (Spells read) pieces items :=
    hpieces.imp fun _ _ hpiece ↦ ⟨hbits hpiece, h.gives hpiece⟩
  refine Outcome.bind_eq_ok_iff.mpr ⟨BitCursor.ofBits stream.content, ?_, ?_⟩
  · rw [ofBytes_eq, if_pos hrange]
  · rw [← hcount]
    exact Reading.outcome_eq_ok_iff.mpr ⟨_, run_readItems hspells hcontent⟩

/-- A stream is decoded exactly if it encodes something, and then this is what is decoded. -/
theorem decodeItems_eq_ok_iff (h : read.Accepts grammar) (hbits : grammar.TakesBits)
    (hrange : stream.bitLength ≤ 8 * stream.bytes.length) :
    decodeItems read stream = .ok items ↔ stream.Encodes grammar items :=
  ⟨fun hdecode ↦ (encodes_of_decodeItems h.obeys hdecode).2,
    decodeItems_of_encodes h hbits hrange⟩

/-! ### Damaged streams -/

/-- Exactly one of the recorded numbers was changed. -/
structure IsDamaged (stream damaged : PackedStream) : Prop where
  bytes_eq : damaged.bytes = stream.bytes
  changed : damaged.bitLength ≠ stream.bitLength ∧ damaged.symbolCount = stream.symbolCount ∨
    damaged.bitLength = stream.bitLength ∧ damaged.symbolCount ≠ stream.symbolCount

/-- A stream that was damaged does not encode anything, if the end of a spelling shows and no item
is spelled without bits: as many items end where they ended before, and as many bits hold as many
items as before. -/
theorem IsDamaged.not_encodes {damaged : PackedStream} {others : List α}
    (h : stream.IsDamaged damaged) (hself : grammar.IsSelfDelimiting) (hbits : grammar.TakesBits)
    (hrange : stream.bitLength ≤ 8 * stream.bytes.length)
    (hrangeDamaged : damaged.bitLength ≤ 8 * damaged.bytes.length)
    (hencodes : stream.Encodes grammar items) : ¬ damaged.Encodes grammar others := by
  intro hdamaged
  obtain ⟨hcount, pieces, hpieces, hcontent⟩ := hencodes
  obtain ⟨hcountDamaged, piecesDamaged, hpiecesDamaged, hcontentDamaged⟩ := hdamaged
  rcases h.changed with ⟨hlength, hsame⟩ | ⟨hsame, hnumber⟩
  · apply hlength
    have hwhole : pieces.flatten <+: Bits.ofBytes stream.bytes :=
      hcontent ▸ stream.content_prefix
    have hwholeDamaged : piecesDamaged.flatten <+: Bits.ofBytes stream.bytes :=
      hcontentDamaged ▸ h.bytes_eq ▸ damaged.content_prefix
    have heq : pieces = piecesDamaged := by
      refine hself.eq_of_length_eq hpieces hpiecesDamaged hwhole hwholeDamaged ?_
      rw [hpieces.length_eq, hpiecesDamaged.length_eq, hcount, hcountDamaged, hsame]
    rw [← length_content hrange, ← length_content hrangeDamaged, hcontent, hcontentDamaged, heq]
  · apply hnumber
    have heq : pieces.flatten = piecesDamaged.flatten := by
      rw [← hcontent, ← hcontentDamaged, content, content, h.bytes_eq, hsame]
    rw [← hcount, ← hcountDamaged, ← hpieces.length_eq, ← hpiecesDamaged.length_eq,
      hself.length_eq hbits hpieces hpiecesDamaged heq]

/-- A stream that was damaged is not decoded. -/
theorem IsDamaged.decodeItems_ne_ok {damaged : PackedStream} (h : stream.IsDamaged damaged)
    (hself : grammar.IsSelfDelimiting) (hbits : grammar.TakesBits) (hread : read.Obeys grammar)
    (hrange : stream.bitLength ≤ 8 * stream.bytes.length) (hencodes : stream.Encodes grammar items)
    (others : List α) : decodeItems read damaged ≠ .ok others := by
  intro hdecode
  obtain ⟨hrangeDamaged, hdamaged⟩ := encodes_of_decodeItems hread hdecode
  exact h.not_encodes hself hbits hrange hrangeDamaged hencodes hdamaged

end HuffmanCoding.PackedStream
