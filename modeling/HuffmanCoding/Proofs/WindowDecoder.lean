import HuffmanCoding.Proofs.Codebook
import HuffmanCoding.Proofs.Encoding
import HuffmanCoding.Proofs.PackedStream
import HuffmanCoding.WindowDecoder

/-!
# Decoding what a codebook encodes

A decoder serves some rows if its table holds their codewords and names their tokens. Wherever a
codeword comes next, its window names the codeword whatever follows, so a decoder that serves a
codebook gives the token of each row back (`Serves.gives_readToken`), and with it every symbol that
the codebook can write (`Serves.spells_readSymbol`) and every sequence of them
(`Serves.decode_of_encode`). Nothing but the rows may be found in the codebook; whether a token has
one row or several does not matter.
-/

set_option autoImplicit false
set_option relaxedAutoImplicit false

namespace HuffmanCoding

variable {S : Type}

namespace WindowDecoder

/-! ### Codewords -/

/-- The slot that a decoder looks up where it stands. -/
def slotAt (decoder : WindowDecoder S) (cursor : BitCursor) : WindowSlot :=
  decoder.table.lookup (cursor.peek decoder.table.width.toNat)

/-- Reading a codeword passes the length in the slot that is taken there and yields the token that
the slot names. All faults are reported where the decoder stood. -/
theorem run_readToken (decoder : WindowDecoder S) (cursor : BitCursor) :
    (decoder.readToken : Reading (Token S)).run cursor =
      if (decoder.slotAt cursor).isTaken = false then
        .error (.malformed .noCodeword cursor.position) cursor
      else if cursor.remaining < (decoder.slotAt cursor).length.toNat then
        .error (.malformed .codewordPastEnd cursor.position) cursor
      else match decoder.tokens[(decoder.slotAt cursor).token.toNat]? with
        | some token => .ok token (cursor.drop (decoder.slotAt cursor).length.toNat)
        | none => .error (.malformed .noSuchToken cursor.position)
            (cursor.drop (decoder.slotAt cursor).length.toNat) := by
  show (if !(decoder.slotAt cursor).isTaken then Reading.fail .noCodeword cursor.position
    else if cursor.remaining < (decoder.slotAt cursor).length.toNat then
      Reading.fail .codewordPastEnd cursor.position
    else do
      Reading.skip (decoder.slotAt cursor).length.toNat
      match decoder.tokens[(decoder.slotAt cursor).token.toNat]? with
      | some token => return token
      | none => Reading.fail .noSuchToken cursor.position : Reading (Token S)).run cursor = _
  cases htaken : (decoder.slotAt cursor).isTaken with
  | false => rfl
  | true =>
    rw [Bool.not_true, if_neg Bool.false_ne_true, if_neg Bool.false_ne_true.symm]
    by_cases hpast : cursor.remaining < (decoder.slotAt cursor).length.toNat
    · rw [if_pos hpast, if_pos hpast]
      rfl
    · rw [if_neg hpast, if_neg hpast, EStateM.run_bind, Reading.run_skip, if_neg hpast]
      cases decoder.tokens[(decoder.slotAt cursor).token.toNat]? with
      | some token => rfl
      | none => rfl

/-- The decoder holds the codewords of some rows and names their tokens. -/
structure Serves (decoder : WindowDecoder S) (rows : List (CodeRow S)) : Prop where
  tokens_eq : decoder.tokens = (rows.map (·.token)).toArray
  holds : WindowTable.Holds decoder.table.width.toNat (rows.map (·.codeword)) decoder.table.slots
  length_le : rows.length ≤ UInt32.size

/-- The number that a slot has for a row names the token of the row. -/
theorem Serves.names {decoder : WindowDecoder S} {rows : List (CodeRow S)}
    (h : decoder.Serves rows) {place : ℕ} {row : CodeRow S} (hrow : rows[place]? = some row) :
    decoder.tokens[(UInt32.ofNat place).toNat]? = some row.token := by
  have hlt := (List.getElem?_eq_some_iff.mp hrow).1
  rw [UInt32.toNat_ofNat_of_lt' (hlt.trans_le h.length_le), h.tokens_eq, List.getElem?_toArray,
    List.getElem?_map, hrow, Option.map_some]

/-- A window that the codeword of a row begins has the number and the length of the row. -/
theorem Serves.lookup_eq {decoder : WindowDecoder S} {rows : List (CodeRow S)}
    (h : decoder.Serves rows) {place : ℕ} {row : CodeRow S} (hrow : rows[place]? = some row)
    {window : ℕ} (hwindow : window < 2 ^ decoder.table.width.toNat)
    (hbegins : WindowTable.Begins decoder.table.width.toNat row.codeword window) :
    decoder.table.lookup window = ⟨UInt32.ofNat place, row.codeword.length⟩ := by
  refine h.holds.slot_eq ?_ window hwindow hbegins
  rw [List.getElem?_map, hrow, Option.map_some]

/-- Where the codeword of a row comes next, its window names the row. -/
theorem Serves.slotAt_eq {decoder : WindowDecoder S} {rows : List (CodeRow S)}
    (h : decoder.Serves rows) {place : ℕ} {row : CodeRow S} (hrow : rows[place]? = some row)
    {cursor : BitCursor} {rest : Bits} (hcursor : cursor.upcoming = row.codeword.path ++ rest) :
    decoder.slotAt cursor = ⟨UInt32.ofNat place, row.codeword.length⟩ := by
  have hfits := h.holds.fits row.codeword (List.mem_map_of_mem (List.mem_of_getElem? hrow))
  refine h.lookup_eq hrow (Bits.toNat_fit_lt _ _) ?_
  rw [WindowTable.Begins, BitCursor.peek, Bits.ofNat_toNat_fit, hcursor]
  refine Bits.prefix_fit (List.prefix_append _ _) ?_
  rw [Codeword.length_path]
  exact hfits.length_le

/-- A decoder gives the token of each codeword back. -/
theorem Serves.gives_readToken {decoder : WindowDecoder S} {rows : List (CodeRow S)}
    (h : decoder.Serves rows) {row : CodeRow S} (hrow : row ∈ rows) :
    Reading.Gives decoder.readToken row.codeword.path row.token := by
  intro cursor rest hcursor
  obtain ⟨place, hplace⟩ := List.mem_iff_getElem?.mp hrow
  have hfits := h.holds.fits row.codeword (List.mem_map_of_mem hrow)
  have hlength := BitCursor.le_remaining hcursor
  rw [Codeword.length_path] at hlength ⊢
  have htaken : ¬ WindowSlot.isTaken ⟨UInt32.ofNat place, row.codeword.length⟩ = false := by
    rw [Bool.not_eq_false, WindowSlot.isTaken, decide_eq_true_eq, UInt8.lt_iff_toNat_lt]
    exact hfits.length_pos
  rw [run_readToken, h.slotAt_eq hplace hcursor, if_neg htaken, if_neg (Nat.not_lt_of_le hlength),
    h.names hplace]

/-! ### Symbols -/

section Symbols

variable [Symbol S] {book : Codebook S} {decoder : WindowDecoder S} {read : Reading S}

/-- A decoder gives a symbol that has a codeword back. -/
theorem Serves.gives_codeword (h : decoder.Serves book.rows)
    (hbook : Codebook.ofSorted book.rows = book) {symbol : S} {codeword : Codeword}
    (hcodeword : book.codewordOf? symbol = some codeword) :
    (decoder.readSymbol read).Gives codeword.path symbol := by
  obtain ⟨row, hrow, htoken, rfl⟩ := Codebook.exists_row_of_codewordOf? hbook hcodeword
  refine (h.gives_readToken hrow).finish ?_
  rw [htoken]
  exact Reading.gives_pure symbol

/-- A decoder gives a symbol that is written as a literal back, if the reader of literals does. -/
theorem Serves.gives_literal (h : decoder.Serves book.rows)
    (hbook : Codebook.ofSorted book.rows = book) {symbol : S} {escape : Codeword}
    (hescape : book.escape = some escape) {bits : Bits} (hread : read.Gives bits symbol) :
    (decoder.readSymbol read).Gives (escape.path ++ bits) symbol := by
  obtain ⟨row, hrow, htoken, rfl⟩ := Codebook.exists_row_of_escape hbook hescape
  refine (h.gives_readToken hrow).bind ?_
  rw [htoken]
  exact hread

/-- A decoder gives every symbol back that the codebook can write, and the symbol takes a bit or
more. -/
theorem Serves.spells_readSymbol (h : decoder.Serves book.rows)
    (hbook : Codebook.ofSorted book.rows = book) {literal : LiteralWriter S} {symbol : S}
    (hliteral : ∀ bits, literal symbol = .ok bits → read.Gives bits symbol)
    {piece : EncodedSymbol} (hpiece : book.encodeSymbol literal symbol = .ok piece) :
    PackedStream.Spells (decoder.readSymbol read) piece.bits symbol := by
  have hne (row : CodeRow S) (hrow : row ∈ book.rows) : row.codeword.path ≠ [] := by
    rw [Ne, Codeword.path_eq_nil_iff]
    exact (h.holds.fits _ (List.mem_map_of_mem hrow)).length_pos.ne'
  rcases Codebook.encodeSymbol_cases hpiece with ⟨codeword, hcodeword, rfl⟩ |
    ⟨escape, bits, _, hescape, hbits, rfl⟩
  · obtain ⟨row, hrow, _, heq⟩ := Codebook.exists_row_of_codewordOf? hbook hcodeword
    exact ⟨heq ▸ hne row hrow, h.gives_codeword hbook hcodeword⟩
  · obtain ⟨row, hrow, _, heq⟩ := Codebook.exists_row_of_escape hbook hescape
    refine ⟨fun hnil ↦ ?_, h.gives_literal hbook hescape (hliteral bits hbits)⟩
    exact hne row hrow (heq ▸ (List.append_eq_nil_iff.mp hnil).1)

/-! ### Sequences -/

section Sequences

variable {write : LiteralWriter S} {symbols : List S}

/-- The pieces of a sequence spell its symbols. -/
theorem Serves.forall₂_spells (h : decoder.Serves book.rows)
    (hbook : Codebook.ofSorted book.rows = book) {pieces : List EncodedSymbol}
    (hliteral : ∀ symbol ∈ symbols, ∀ bits, write symbol = .ok bits → read.Gives bits symbol)
    (hpieces : List.Forall₂ (fun symbol piece ↦ book.encodeSymbol write symbol = .ok piece)
      symbols pieces) :
    List.Forall₂ (PackedStream.Spells (decoder.readSymbol read)) (pieces.map (·.bits))
      symbols := by
  induction hpieces with
  | nil => exact List.Forall₂.nil
  | @cons symbol piece symbols pieces hpiece _ ih =>
    refine List.Forall₂.cons ?_
      (ih fun other hother ↦ hliteral other (List.mem_cons_of_mem _ hother))
    exact h.spells_readSymbol hbook (hliteral symbol (List.mem_cons_self ..)) hpiece

/-- Decoding undoes every encoding that succeeds, if the reader of literals gives back what their
writer wrote. -/
theorem Serves.decode_of_encode (h : decoder.Serves book.rows)
    (hbook : Codebook.ofSorted book.rows = book)
    (hliteral : ∀ symbol ∈ symbols, ∀ bits, write symbol = .ok bits → read.Gives bits symbol)
    {stream : PackedStream} (hstream : book.encode write symbols = .ok stream) :
    decoder.decode read stream = .ok symbols := by
  obtain ⟨pieces, hpieces, rfl⟩ := Codebook.encode_eq_ok_iff.mp hstream
  exact PackedStream.decodeItems_ofBits (h.forall₂_spells hbook hliteral hpieces)

end Sequences

end Symbols

end WindowDecoder

end HuffmanCoding
