import HuffmanCoding.Codebook.Encoding
import HuffmanCoding.Proofs.Outcome

/-!
# What a codebook writes

A symbol is written as its codeword, or as the escape and its literal (`encodeSymbol_cases`); it
cannot be written if neither is there (`encodeSymbol_eq_error`). A sequence of symbols is written
piece by piece (`encode_eq_ok_iff`), up to the first symbol that cannot be written
(`encode_eq_error`).
-/

set_option autoImplicit false
set_option relaxedAutoImplicit false

namespace HuffmanCoding.Codebook

variable {S : Type} [Symbol S] {book : Codebook S} {literal : LiteralWriter S}

/-! ### One symbol -/

section Symbol

variable {symbol : S}

/-- What is written for a symbol is its codeword, or the escape and the literal. -/
theorem encodeSymbol_cases {piece : EncodedSymbol}
    (h : book.encodeSymbol literal symbol = .ok piece) :
    (∃ codeword, book.codewordOf? symbol = some codeword ∧ piece = ⟨codeword.path, false⟩) ∨
    ∃ escape bits, book.codewordOf? symbol = none ∧ book.escape = some escape ∧
      literal symbol = .ok bits ∧ piece = ⟨escape.path ++ bits, true⟩ := by
  unfold encodeSymbol at h
  split at h
  · rename_i codeword hcodeword
    exact Or.inl ⟨codeword, hcodeword, (Except.ok.inj h).symm⟩
  · rename_i escape hcodeword hescape
    obtain ⟨bits, hbits, hpiece⟩ := Outcome.bind_eq_ok_iff.mp h
    exact Or.inr ⟨escape, bits, hcodeword, hescape, hbits, (Except.ok.inj hpiece).symm⟩
  · cases h

/-- A symbol that is not written has no codeword, and then there is no escape or no literal. -/
theorem encodeSymbol_eq_error {error : Error}
    (h : book.encodeSymbol literal symbol = .error error) :
    book.codewordOf? symbol = none ∧
      (book.escape = none ∧ error = .unencodableSymbol symbol ∨
        book.escape.isSome = true ∧ literal symbol = .error error) := by
  unfold encodeSymbol at h
  split at h
  · cases h
  · rename_i escape hcodeword hescape
    rcases Outcome.bind_eq_error_iff.mp h with hliteral | ⟨_, _, hpure⟩
    · exact ⟨hcodeword, Or.inr ⟨by rw [hescape, Option.isSome_some], hliteral⟩⟩
    · cases hpure
  · rename_i hcodeword hescape
    cases h
    exact ⟨hcodeword, Or.inl ⟨hescape, rfl⟩⟩

/-- A symbol is written if it has a codeword, or if there are an escape and a literal. -/
theorem exists_encodeSymbol_iff : (∃ piece, book.encodeSymbol literal symbol = .ok piece) ↔
    (book.codewordOf? symbol).isSome = true ∨
      book.escape.isSome = true ∧ ∃ bits, literal symbol = .ok bits := by
  constructor
  · rintro ⟨piece, hpiece⟩
    rcases encodeSymbol_cases hpiece with ⟨codeword, hcodeword, _⟩ |
      ⟨escape, bits, _, hescape, hbits, _⟩
    · exact Or.inl (by rw [hcodeword, Option.isSome_some])
    · exact Or.inr ⟨by rw [hescape, Option.isSome_some], bits, hbits⟩
  · intro h
    rcases Outcome.ok_or_error (book.encodeSymbol literal symbol) with hok | ⟨error, herror⟩
    · exact hok
    · obtain ⟨hcodeword, hcases⟩ := encodeSymbol_eq_error herror
      rcases h with hsome | ⟨hescape, bits, hbits⟩
      · rw [hcodeword] at hsome
        cases hsome
      · rcases hcases with ⟨hnone, _⟩ | ⟨_, hliteral⟩
        · rw [hnone] at hescape
          cases hescape
        · rw [hbits] at hliteral
          cases hliteral

end Symbol

/-! ### Sequences -/

section Sequences

variable {symbols : List S}

/-- A sequence is written as the pieces of its symbols. -/
theorem encode_eq_ok_iff {stream : PackedStream} : book.encode literal symbols = .ok stream ↔
    ∃ pieces, List.Forall₂ (fun symbol piece ↦ book.encodeSymbol literal symbol = .ok piece)
      symbols pieces ∧
      stream = PackedStream.ofBits (pieces.flatMap (·.bits)) symbols.length := by
  constructor
  · intro h
    obtain ⟨⟨written, statistics⟩, hcounted, hpure⟩ := Outcome.bind_eq_ok_iff.mp h
    obtain ⟨pieces, hpieces, hresult⟩ := Outcome.bind_eq_ok_iff.mp hcounted
    cases hresult
    exact ⟨pieces, Outcome.mapM_eq_ok_iff.mp hpieces, (Except.ok.inj hpure).symm⟩
  · rintro ⟨pieces, hpieces, rfl⟩
    refine Outcome.bind_eq_ok_iff.mpr ⟨_, Outcome.bind_eq_ok_iff.mpr ⟨pieces, ?_, rfl⟩, rfl⟩
    exact Outcome.mapM_eq_ok_iff.mpr hpieces

/-- A sequence is written if each of its symbols is. -/
theorem exists_encode_iff : (∃ stream, book.encode literal symbols = .ok stream) ↔
    ∀ symbol ∈ symbols, ∃ piece, book.encodeSymbol literal symbol = .ok piece := by
  rw [← Outcome.exists_mapM_eq_ok_iff]
  constructor
  · rintro ⟨stream, hstream⟩
    obtain ⟨pieces, hpieces, _⟩ := encode_eq_ok_iff.mp hstream
    exact ⟨pieces, Outcome.mapM_eq_ok_iff.mpr hpieces⟩
  · rintro ⟨pieces, hpieces⟩
    exact ⟨_, encode_eq_ok_iff.mpr ⟨pieces, Outcome.mapM_eq_ok_iff.mp hpieces, rfl⟩⟩

/-- The error of a sequence is that of the first symbol that is not written. -/
theorem encode_eq_error {error : Error} (h : book.encode literal symbols = .error error) :
    ∃ before symbol after, symbols = before ++ symbol :: after ∧
      (∀ other ∈ before, ∃ piece, book.encodeSymbol literal other = .ok piece) ∧
      book.encodeSymbol literal symbol = .error error := by
  rcases Outcome.bind_eq_error_iff.mp h with hcounted | ⟨_, _, hpure⟩
  · rcases Outcome.bind_eq_error_iff.mp hcounted with hpieces | ⟨_, _, hresult⟩
    · exact Outcome.exists_of_mapM_eq_error hpieces
    · cases hresult
  · cases hpure

end Sequences

end HuffmanCoding.Codebook
