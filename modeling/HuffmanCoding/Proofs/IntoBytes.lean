import HuffmanCoding.Codebook.Encoding
import HuffmanCoding.Proofs.ByteWriter
import HuffmanCoding.Proofs.Codebook
import HuffmanCoding.Proofs.Encoding

/-!
# Writing into bytes

All writers have a second form that puts field after field into bytes. One writer goes through all
symbols of a sequence, with the bits of a byte that is not complete waiting in its buffer, through
the escapes and the literals, too, and counters are kept beside it (`Codebook.encodeIntoBytes`).

A computation writes an outcome if it adds its bits behind whatever was written before, or fails
with its error (`ByteWriting.Writes`). Each of the second forms writes what the plain form yields,
as long as no codeword has more than 32 bits, so encoding into bytes comes to the same stream, the
same statistics and the same errors as encoding bits and packing them in the end
(`Codebook.encodeIntoBytes_eq`).
-/

set_option autoImplicit false
set_option relaxedAutoImplicit false

namespace HuffmanCoding

namespace ByteWriting

variable {α β : Type}

/-! ### What a computation writes -/

/-- The computation has a given outcome, and adds its bits behind what was written before. -/
structure Writes (work : ByteWriting α) (outcome : Except Error (Bits × α)) : Prop where
  run_ok : ∀ bits value, outcome = .ok (bits, value) → ∀ writer,
    ∃ left, work.run writer = .ok value left ∧ left.content = writer.content ++ bits
  run_error : ∀ error, outcome = .error error → ∀ writer,
    ∃ left, work.run writer = .error error left

theorem writes_pure (value : α) : (pure value : ByteWriting α).Writes (.ok ([], value)) where
  run_ok := by
    intro bits other houtcome writer
    cases houtcome
    exact ⟨writer, rfl, (List.append_nil _).symm⟩
  run_error := by
    intro error houtcome
    cases houtcome

theorem writes_throw (error : Error) : (throw error : ByteWriting α).Writes (.error error) where
  run_ok := by
    intro bits value houtcome
    cases houtcome
  run_error := by
    intro other houtcome writer
    cases houtcome
    exact ⟨writer, rfl⟩

/-- Where the first of two computations fails, both fail together. -/
theorem Writes.bind_error {work : ByteWriting α} {error : Error} (h : work.Writes (.error error))
    (next : α → ByteWriting β) : (work >>= next).Writes (.error error) where
  run_ok := by
    intro bits value houtcome
    cases houtcome
  run_error := by
    intro other houtcome writer
    cases houtcome
    obtain ⟨left, hrun⟩ := h.run_error error rfl writer
    exact ⟨left, by rw [EStateM.run_bind, hrun]⟩

/-- Two computations write the bits of the first one and then those of the second one. -/
theorem Writes.bind {work : ByteWriting α} {bits : Bits} {value : α}
    (h : work.Writes (.ok (bits, value))) (next : α → ByteWriting β)
    {outcome : Except Error (Bits × β)} (hnext : (next value).Writes outcome) :
    (work >>= next).Writes (outcome.map fun written ↦ (bits ++ written.1, written.2)) where
  run_ok := by
    intro both result houtcome writer
    obtain ⟨middle, hrun, hmiddle⟩ := h.run_ok bits value rfl writer
    cases outcome with
    | error error => cases houtcome
    | ok written =>
      obtain ⟨more, result⟩ := written
      cases houtcome
      obtain ⟨left, hrest, hleft⟩ := hnext.run_ok more result rfl middle
      refine ⟨left, by rw [EStateM.run_bind, hrun]; exact hrest, ?_⟩
      rw [hleft, hmiddle, List.append_assoc]
  run_error := by
    intro error houtcome writer
    obtain ⟨middle, hrun, _⟩ := h.run_ok bits value rfl writer
    cases outcome with
    | ok written => cases houtcome
    | error fault =>
      cases houtcome
      obtain ⟨left, hrest⟩ := hnext.run_error error rfl middle
      exact ⟨left, by rw [EStateM.run_bind, hrun]; exact hrest⟩

/-- Where only the bits of the first computation matter, the second one is the same in any case. -/
theorem Writes.andThen {work : ByteWriting Unit} {bits : Bits} (h : work.Writes (.ok (bits, ())))
    {next : ByteWriting β} {outcome : Except Error (Bits × β)} (hnext : next.Writes outcome) :
    (do work; next).Writes (outcome.map fun (written : Bits × β) ↦
      (bits ++ written.1, written.2)) :=
  h.bind (fun _ ↦ next) hnext

/-! ### Fields and literals are written -/

theorem writes_put {width : ℕ} (h : width ≤ 32) (value : ℕ) :
    (put width value).Writes (.ok (Bits.ofNat width value, ())) where
  run_ok := by
    intro bits result houtcome writer
    cases houtcome
    exact ⟨writer.put width value, rfl, writer.content_put h value⟩
  run_error := by
    intro error houtcome
    cases houtcome

theorem writes_number (value : ℕ) : (number value).Writes (.ok (Bits.ofNumber value, ())) := by
  fun_induction number value with
  | case1 value hsmall =>
    rw [Bits.ofNumber, if_pos hsmall]
    exact writes_put (by decide) value
  | case2 value hlarge ih =>
    rw [Bits.ofNumber, if_neg hlarge]
    have hgroup : (put 8 (value % 128 + 128)).Writes _ := writes_put (by decide) _
    exact hgroup.andThen ih

theorem writes_bytes (content : List UInt8) :
    (bytes content).Writes (.ok (Bits.ofBytes content, ())) := by
  induction content with
  | nil => exact writes_pure ()
  | cons byte rest ih =>
    have hbyte : (put 8 byte.toNat).Writes _ := writes_put (by decide) _
    exact hbyte.andThen ih

/-- The literal of a symbol, written into bytes, is its usual literal. -/
def WritesLiteral {S : Type} (write : S → ByteWriting Unit) (literal : LiteralWriter S) : Prop :=
  ∀ symbol, (write symbol).Writes ((literal symbol).map fun bits ↦ (bits, ()))

theorem writesLiteral_character : WritesLiteral character LiteralWriter.usual :=
  fun letter ↦ writes_put (by decide) letter.toNat

theorem writesLiteral_text : WritesLiteral text LiteralWriter.usual :=
  fun content ↦ (writes_number _).andThen (writes_bytes (Utf8.encode content))

/-! ### Sequences are written -/

section Each

variable {S : Type}

/-- Counts symbols one after the other, given the ways in which they were written. -/
def countEach (count : α → S → Bool → α) : (counted : α) → List S → List EncodedSymbol → α
  | counted, symbol :: symbols, piece :: pieces =>
    countEach count (count counted symbol piece.escaped) symbols pieces
  | counted, _, _ => counted

/-- Symbols are written as their pieces one after the other, and each of them is counted. -/
theorem writes_each {write : S → ByteWriting Bool} {encode : S → Except Error EncodedSymbol}
    (h : ∀ symbol, (write symbol).Writes
      ((encode symbol).map fun piece ↦ (piece.bits, piece.escaped)))
    (count : α → S → Bool → α) (counted : α) (symbols : List S) :
    (each write count counted symbols).Writes ((symbols.mapM encode).map fun pieces ↦
      (pieces.flatMap (·.bits), countEach count counted symbols pieces)) := by
  induction symbols generalizing counted with
  | nil => exact writes_pure counted
  | cons symbol rest ih =>
    have hsymbol := h symbol
    rw [List.mapM_cons]
    cases hpiece : encode symbol with
    | error error =>
      rw [hpiece] at hsymbol
      exact hsymbol.bind_error _
    | ok piece =>
      rw [hpiece] at hsymbol
      have hrest := hsymbol.bind
        (fun escaped ↦ each write count (count counted symbol escaped) rest)
        (ih (count counted symbol piece.escaped))
      cases hpieces : rest.mapM encode with
      | error error =>
        rw [hpieces] at hrest
        exact hrest
      | ok pieces =>
        rw [hpieces] at hrest
        exact hrest

end Each

end ByteWriting

/-! ### Encoding into bytes -/

namespace Codebook

variable {S : Type} [Symbol S] {book : Codebook S} {literal : LiteralWriter S}

def IsNarrow (book : Codebook S) : Prop :=
  ∀ token codeword, book.codewordFor? token = some codeword → codeword.length.toNat ≤ 32

/-- A symbol is written into bytes as it is encoded. -/
theorem IsNarrow.writes_writeSymbol (h : book.IsNarrow) {write : S → ByteWriting Unit}
    (hliteral : ByteWriting.WritesLiteral write literal) (symbol : S) :
    (book.writeSymbol write symbol).Writes
      ((book.encodeSymbol literal symbol).map fun piece ↦ (piece.bits, piece.escaped)) := by
  have hsymbol := h (.symbol symbol)
  have hescape := h .escape
  unfold codewordFor? at hsymbol hescape
  unfold writeSymbol encodeSymbol
  cases hcodeword : book.codewordOf? symbol with
  | some codeword =>
    have hwrites := (ByteWriting.writes_put (hsymbol codeword hcodeword)
      codeword.bits.toNat).andThen (ByteWriting.writes_pure false)
    simp only [Except.map, List.append_nil] at hwrites ⊢
    exact hwrites
  | none =>
    cases hfound : book.escape with
    | none => exact ByteWriting.writes_throw _
    | some escape =>
      have hput := ByteWriting.writes_put (hescape escape hfound) escape.bits.toNat
      have hwrite := hliteral symbol
      cases hbits : literal symbol with
      | error error =>
        rw [hbits] at hwrite
        exact hput.andThen (hwrite.bind_error _)
      | ok bits =>
        rw [hbits] at hwrite
        have hwrites := hput.andThen (hwrite.andThen (ByteWriting.writes_pure true))
        simp only [Except.map, List.append_nil] at hwrites
        exact hwrites

/-- What is counted on the way is the number of literals and the size of all symbols. -/
theorem countEach_tally (statistics : Statistics) {symbols : List S} {pieces : List EncodedSymbol}
    (h : symbols.length = pieces.length) :
    ByteWriting.countEach (fun statistics symbol ↦ statistics.tally (Symbol.rawBits symbol))
        statistics symbols pieces =
      { statistics with
        escaped := statistics.escaped + pieces.countP (·.escaped)
        rawBits := statistics.rawBits + (symbols.map Symbol.rawBits).foldr (· + ·) 0 } := by
  induction symbols generalizing statistics pieces with
  | nil =>
    rw [List.length_nil] at h
    rw [List.length_eq_zero_iff.mp h.symm]
    rfl
  | cons symbol symbols ih =>
    cases pieces with
    | nil => cases h
    | cons piece pieces =>
      rw [ByteWriting.countEach, ih _ (Nat.succ.inj h), List.countP_cons, List.map_cons,
        List.foldr_cons, Statistics.tally]
      cases hescaped : piece.escaped <;> simp [Nat.add_assoc, Nat.add_comm, Nat.add_left_comm]

/-- Encoding into bytes comes to the same as encoding bits and packing them in the end. -/
theorem IsNarrow.encodeIntoBytes_eq (h : book.IsNarrow) {write : S → ByteWriting Unit}
    (hliteral : ByteWriting.WritesLiteral write literal) (symbols : List S) :
    book.encodeIntoBytes write symbols = book.encodeCounted literal symbols := by
  have hwrites := ByteWriting.writes_each (h.writes_writeSymbol hliteral)
    (fun (statistics : Statistics) symbol ↦ statistics.tally (Symbol.rawBits symbol)) .empty symbols
  unfold encodeIntoBytes writeSymbols ByteWriting.finish encodeCounted
  cases hpieces : symbols.mapM (book.encodeSymbol literal) with
  | error error =>
    rw [hpieces] at hwrites
    obtain ⟨left, hrun⟩ := hwrites.run_error error rfl .empty
    simp only [hrun]
    rfl
  | ok pieces =>
    rw [hpieces] at hwrites
    obtain ⟨left, hrun, hleft⟩ := hwrites.run_ok _ _ rfl .empty
    have hlength := (Outcome.mapM_eq_ok_iff.mp hpieces).length_eq
    rw [ByteWriter.content_empty, List.nil_append] at hleft
    simp only [hrun, countEach_tally _ hlength, ByteWriter.stream_eq, hleft]
    simp only [Statistics.empty, Nat.zero_add]
    rfl

end Codebook

end HuffmanCoding
