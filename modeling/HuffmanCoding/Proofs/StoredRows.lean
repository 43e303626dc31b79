import HuffmanCoding.Proofs.Literals
import HuffmanCoding.Proofs.PrefixFree
import HuffmanCoding.Proofs.Tables
import HuffmanCoding.Proofs.WindowDecoder

/-!
# Codebooks from stored rows

Stored rows may hold anything. They are accepted if no number of a codeword begins the number of
another row, which is not yet enough: a codeword may be without bits, or have digits above its
length, which are compared but never written. Such rows are accepted and have no decoder.

This is the only gap. If each codeword has a bit and no digit above its length, then accepted rows
are as good as those of a tree: the paths part from each other, there is a decoder, and it gives
back every sequence that the codebook writes (`ofRows_isUsable_iff`). Two rows with the same token
do no harm. The later one is written, and both are read as the same symbol.
-/

set_option autoImplicit false
set_option relaxedAutoImplicit false

namespace HuffmanCoding

open WindowTable

/-- The codeword has a bit, and no digit is set above its length. -/
def Codeword.IsSpelledOut (codeword : Codeword) : Prop :=
  0 < codeword.length.toNat ∧ codeword.IsTight

instance (codeword : Codeword) : Decidable codeword.IsSpelledOut :=
  inferInstanceAs (Decidable (_ ∧ _))

namespace Codebook

variable {S : Type} [Symbol S]

/-- The decoder gives back what the codebook wrote. -/
def Restores (book : Codebook S) (decoder : WindowDecoder S) (write : LiteralWriter S)
    (read : Reading S) (symbols : List S) : Prop :=
  ∀ stream, book.encode write symbols = .ok stream → decoder.decode read stream = .ok symbols

/-- What is written with the codebook can be read again. -/
structure IsUsable (book : Codebook S) (config : TableConfig) : Prop where
  path_ne_nil : ∀ row ∈ book.rows, row.codeword.path ≠ []
  part : book.rows.Pairwise fun first second ↦
    Bits.Part first.codeword.path second.codeword.path
  exists_decoder : ∃ decoder, (WindowDecoder.ofCodebook book config).unheard = .ok decoder ∧
    ∀ write read symbols,
      (∀ symbol ∈ symbols, ∀ bits, write symbol = .ok bits → read.Gives bits symbol) →
        book.Restores decoder write read symbols

variable {rows : List (CodeRow S)} {book : Codebook S} {config : TableConfig}

/-! ### Accepted rows -/

/-- Rows are accepted if their numbers do not begin each other. -/
theorem ofRows_eq_ok_iff : ofRows rows = .ok book ↔
    ofSorted (sorted rows) = book ∧ book.isPrefixFree = true := by
  simp only [ofRows]
  split_ifs with hfree
  · rw [Except.ok.injEq]
    refine ⟨fun h ↦ ⟨h, h ▸ hfree⟩, And.left⟩
  · refine ⟨fun h ↦ (by cases h), ?_⟩
    rintro ⟨rfl, hbook⟩
    exact absurd hbook hfree

/-- Accepted rows are kept, in the order of their tokens. -/
theorem rows_perm_of_ofRows (h : ofRows rows = .ok book) : book.rows.Perm rows := by
  rw [← (ofRows_eq_ok_iff.mp h).1]
  exact List.mergeSort_perm _ _

/-- Nothing but the rows is found in their codebook. -/
theorem ofSorted_eq_of_ofRows (h : ofRows rows = .ok book) : ofSorted book.rows = book := by
  obtain ⟨rfl, _⟩ := ofRows_eq_ok_iff.mp h
  rfl

/-- Codewords that are spelled out fit into a window that is as wide as the longest of them. -/
theorem fits_of_isSpelledOut (hbook : ofSorted book.rows = book)
    (hspelled : ∀ row ∈ book.rows, row.codeword.IsSpelledOut) :
    ∀ row ∈ book.rows, Fits book.longest.toNat row.codeword := by
  intro row hrow
  have hgreatest := isGreatest_longest (List.ne_nil_of_mem hrow)
  rw [hbook] at hgreatest
  exact ⟨(hspelled row hrow).1, hgreatest.2 ⟨row, hrow, rfl⟩, (hspelled row hrow).2⟩

/-- The check of stored rows finds every overlap of codewords that are spelled out. -/
theorem isPrefixFree_iff (hspelled : ∀ row ∈ book.rows, row.codeword.IsSpelledOut)
    (hlength : ∀ row ∈ book.rows, row.codeword.length.toNat ≤ 32) :
    book.isPrefixFree = true ↔ book.rows.Pairwise fun first second ↦
      Bits.Part first.codeword.path second.codeword.path := by
  rw [isPrefixFree, Codeword.arePrefixFree_iff, List.pairwise_map]
  intro codeword hcodeword
  obtain ⟨row, hrow, rfl⟩ := List.mem_map.mp hcodeword
  exact ⟨(hspelled row hrow).1, hlength row hrow, (hspelled row hrow).2⟩

/-- Rows are accepted if their codewords are spelled out and part from each other. -/
theorem ofRows_of_part (hspelled : ∀ row ∈ rows, row.codeword.IsSpelledOut)
    (hlength : ∀ row ∈ rows, row.codeword.length.toNat ≤ 32)
    (hpart : rows.Pairwise fun first second ↦
      Bits.Part first.codeword.path second.codeword.path) :
    ofRows rows = .ok (ofSorted (sorted rows)) := by
  have hperm : (sorted rows).Perm rows := List.mergeSort_perm _ _
  refine ofRows_eq_ok_iff.mpr ⟨rfl, (isPrefixFree_iff (fun row hrow ↦ ?_) fun row hrow ↦ ?_).mpr ?_⟩
  · exact hspelled row (hperm.mem_iff.mp hrow)
  · exact hlength row (hperm.mem_iff.mp hrow)
  · exact hperm.symm.pairwise hpart fun h ↦ h.symm

/-! ### Decoders -/

/-- A decoder of few rows serves them, and their codewords fit into its windows. -/
theorem serves_of_ofCodebook {decoder : WindowDecoder S}
    (h : (WindowDecoder.ofCodebook book config).unheard = .ok decoder)
    (hlongest : book.longest.toNat ≤ 32) :
    decoder.Serves book.rows ∧ ∀ row ∈ book.rows, Fits book.longest.toNat row.codeword := by
  obtain ⟨table, htable, rfl⟩ := WindowDecoder.ofCodebook_eq_ok_iff.mp h
  obtain ⟨hwidth, hholds⟩ := holds_of_build htable
  have hfew : book.rows.length ≤ UInt32.size := by
    calc book.rows.length = (book.rows.map (·.codeword)).length := (List.length_map _).symm
      _ ≤ 2 ^ book.longest.toNat := hholds.length_le
      _ ≤ 2 ^ 32 := Nat.pow_le_pow_right (by decide) hlongest
  refine ⟨⟨rfl, ?_, hfew⟩, fun row hrow ↦ hholds.fits _ (List.mem_map_of_mem hrow)⟩
  show Holds table.width.toNat _ _
  rw [hwidth]
  exact hholds

/-- A decoder of few rows makes their codebook usable. -/
theorem isUsable_of_ofCodebook {decoder : WindowDecoder S} (hbook : ofSorted book.rows = book)
    (h : (WindowDecoder.ofCodebook book config).unheard = .ok decoder)
    (hlongest : book.longest.toNat ≤ 32) : book.IsUsable config := by
  obtain ⟨hserves, hfits⟩ := serves_of_ofCodebook h hlongest
  have hpart := hserves.holds.part
  rw [List.pairwise_map] at hpart
  refine ⟨fun row hrow ↦ ?_, hpart, decoder, h, ?_⟩
  · rw [Ne, Codeword.path_eq_nil_iff]
    exact (hfits row hrow).length_pos.ne'
  · intro write read symbols hliteral stream hstream
    exact hserves.decode_of_encode hbook hliteral hstream

/-- Codewords that are spelled out and part from each other have a decoder. -/
theorem exists_ofCodebook (hbook : ofSorted book.rows = book)
    (hspelled : ∀ row ∈ book.rows, row.codeword.IsSpelledOut)
    (hpart : book.rows.Pairwise fun first second ↦
      Bits.Part first.codeword.path second.codeword.path) (config : TableConfig) :
    ∃ decoder, (WindowDecoder.ofCodebook book config).unheard = .ok decoder := by
  have hfits : ∀ codeword ∈ book.rows.map (·.codeword), Fits book.longest.toNat codeword := by
    intro codeword hcodeword
    obtain ⟨row, hrow, rfl⟩ := List.mem_map.mp hcodeword
    exact fits_of_isSpelledOut hbook hspelled row hrow
  obtain ⟨table, htable⟩ := exists_build book.longest hfits (List.pairwise_map.mpr hpart)
  exact ⟨_, WindowDecoder.ofCodebook_eq_ok_iff.mpr ⟨table, htable, rfl⟩⟩

/-! ### Usable rows -/

section Bounded

variable (hrows : ∀ row ∈ rows, row.codeword.length ≤ 20) (h : ofRows rows = .ok book)

include hrows h

theorem length_le_of_ofRows : ∀ row ∈ book.rows, row.codeword.length.toNat ≤ 20 :=
  fun row hrow ↦ UInt8.le_iff_toNat_le.mp (hrows row ((rows_perm_of_ofRows h).mem_iff.mp hrow))

theorem longest_le_of_ofRows : book.longest.toNat ≤ 20 := by
  have hbook := ofSorted_eq_of_ofRows h
  by_cases hempty : book.rows = []
  · rw [← hbook, hempty]
    exact Nat.zero_le 20
  · have hgreatest := isGreatest_longest hempty
    rw [hbook] at hgreatest
    obtain ⟨row, hrow, hlength⟩ := hgreatest.1
    rw [← hlength]
    exact length_le_of_ofRows hrows h row hrow

/-- Accepted rows have a decoder exactly if each codeword is spelled out. -/
theorem exists_ofCodebook_iff :
    (∃ decoder, (WindowDecoder.ofCodebook book config).unheard = .ok decoder) ↔
      ∀ row ∈ rows, row.codeword.IsSpelledOut := by
  have hbook := ofSorted_eq_of_ofRows h
  have hmem (row : CodeRow S) : row ∈ book.rows ↔ row ∈ rows := (rows_perm_of_ofRows h).mem_iff
  constructor
  · rintro ⟨decoder, hdecoder⟩ row hrow
    have hwide := (longest_le_of_ofRows hrows h).trans (by decide : 20 ≤ 32)
    have hfits := (serves_of_ofCodebook hdecoder hwide).2 row ((hmem row).mpr hrow)
    exact ⟨hfits.length_pos, hfits.isTight⟩
  · intro hspelled
    have hkept (row : CodeRow S) (hrow : row ∈ book.rows) : row.codeword.IsSpelledOut :=
      hspelled row ((hmem row).mp hrow)
    refine exists_ofCodebook hbook hkept ?_ config
    exact (isPrefixFree_iff hkept fun row hrow ↦
      (length_le_of_ofRows hrows h row hrow).trans (by decide)).mp (ofRows_eq_ok_iff.mp h).2

/-- Accepted rows are usable exactly if they have a decoder. -/
theorem isUsable_iff_exists_ofCodebook : book.IsUsable config ↔
    ∃ decoder, (WindowDecoder.ofCodebook book config).unheard = .ok decoder := by
  refine ⟨fun husable ↦ ?_, ?_⟩
  · obtain ⟨decoder, hdecoder, _⟩ := husable.exists_decoder
    exact ⟨decoder, hdecoder⟩
  · rintro ⟨decoder, hdecoder⟩
    exact isUsable_of_ofCodebook (ofSorted_eq_of_ofRows h) hdecoder
      ((longest_le_of_ofRows hrows h).trans (by decide))

end Bounded

/-- A usable codebook and its decoder restore every sequence with literals that can be read. -/
theorem IsUsable.restores {decoder : WindowDecoder S} (h : book.IsUsable config)
    (hdecoder : (WindowDecoder.ofCodebook book config).unheard = .ok decoder)
    {write : LiteralWriter S} {read : Reading S} {symbols : List S}
    (hliteral : ∀ symbol ∈ symbols, ∀ bits, write symbol = .ok bits → read.Gives bits symbol) :
    book.Restores decoder write read symbols := by
  obtain ⟨other, hother, hrestores⟩ := h.exists_decoder
  rw [hdecoder, Except.ok.injEq] at hother
  rw [hother]
  exact hrestores write read symbols hliteral

/-- Rows with at most 20 bits for each codeword that were accepted are kept, and they are usable
exactly if each codeword has a bit and no digit set above its length; otherwise there is no decoder
for them. A usable codebook restores all characters and texts that it writes, where texts have to
fit into memory. -/
theorem ofRows_isUsable_iff (config : TableConfig) :
    (∀ (S : Type) [Symbol S] (rows : List (CodeRow S)) (book : Codebook S),
      (∀ row ∈ rows, row.codeword.length ≤ 20) → ofRows rows = .ok book →
        book.rows.Perm rows ∧
        (book.IsUsable config ↔ ∀ row ∈ rows, row.codeword.IsSpelledOut) ∧
        ((∃ decoder, (WindowDecoder.ofCodebook book config).unheard = .ok decoder) ↔
          ∀ row ∈ rows, row.codeword.IsSpelledOut)) ∧
    (∀ (book : Codebook Char) (decoder : WindowDecoder Char),
      book.IsUsable config → (WindowDecoder.ofCodebook book config).unheard = .ok decoder →
        ∀ symbols, book.Restores decoder LiteralWriter.usual Symbol.readLiteral symbols) ∧
    ∀ (book : Codebook String) (decoder : WindowDecoder String),
      book.IsUsable config → (WindowDecoder.ofCodebook book config).unheard = .ok decoder →
        ∀ symbols, (∀ symbol ∈ symbols, IsStorable symbol) →
          book.Restores decoder LiteralWriter.usual Symbol.readLiteral symbols := by
  refine ⟨?_, ?_, ?_⟩
  · intro S _ rows book hrows hbook
    have hdecoder : (∃ decoder, (WindowDecoder.ofCodebook book config).unheard = .ok decoder) ↔
        ∀ row ∈ rows, row.codeword.IsSpelledOut := exists_ofCodebook_iff hrows hbook
    exact ⟨rows_perm_of_ofRows hbook,
      (isUsable_iff_exists_ofCodebook hrows hbook).trans hdecoder, hdecoder⟩
  · intro book decoder husable hdecoder symbols
    refine husable.restores hdecoder fun symbol _ bits hbits ↦ ?_
    cases hbits
    exact Reading.gives_character symbol
  · intro book decoder husable hdecoder symbols hstorable
    refine husable.restores hdecoder fun symbol hsymbol bits hbits ↦ ?_
    cases hbits
    exact Reading.gives_text (hstorable symbol hsymbol)

def threeRows (first second : S) : List (CodeRow S) :=
  [⟨.escape, ⟨2, 2⟩, 1⟩, ⟨.symbol first, ⟨0, 1⟩, 5⟩, ⟨.symbol second, ⟨3, 2⟩, 2⟩]

/-- Rows for two letters and for two words are usable, and what is written with them is restored,
also where it needs the escape. -/
theorem ofRows_isUsable_iff_of_threeRows :
    ∃ (letters : Codebook Char) (words : Codebook String) (decoder : WindowDecoder Char)
      (reader : WindowDecoder String) (stream : PackedStream),
      ofRows (threeRows 'a' 'b') = .ok letters ∧ ofRows (threeRows "a" "b") = .ok words ∧
      letters.IsUsable .standard ∧
      (WindowDecoder.ofCodebook letters .standard).unheard = .ok decoder ∧
      letters.encode LiteralWriter.usual ['b', 'z', 'a'] = .ok stream ∧
      decoder.decode Symbol.readLiteral stream = .ok ['b', 'z', 'a'] ∧
      (WindowDecoder.ofCodebook words .standard).unheard = .ok reader ∧
      words.Restores reader LiteralWriter.usual Symbol.readLiteral ["b", "", "z"] := by
  obtain ⟨hrows, hletters, hwords⟩ := ofRows_isUsable_iff .standard
  have hspelled : ∀ row ∈ threeRows 'a' 'b', row.codeword.IsSpelledOut := by decide
  have hspelledWords : ∀ row ∈ threeRows "a" "b", row.codeword.IsSpelledOut := by decide
  have hbook := ofRows_of_part hspelled (by decide) (by decide)
  have hwordBook := ofRows_of_part hspelledWords (by decide) (by decide)
  obtain ⟨_, husable, hdecoder⟩ := hrows Char _ _ (by decide) hbook
  obtain ⟨_, husableWords, hreader⟩ := hrows String _ _ (by decide) hwordBook
  obtain ⟨decoder, hdecoder⟩ := hdecoder.mpr hspelled
  obtain ⟨reader, hreader⟩ := hreader.mpr hspelledWords
  have husable := husable.mpr hspelled
  have hrestores := hletters _ _ husable hdecoder ['b', 'z', 'a']
  have hsorted : sorted (threeRows 'a' 'b') = threeRows 'a' 'b' :=
    List.mergeSort_of_pairwise (by decide)
  have hwritten : ∃ stream, (ofSorted (sorted (threeRows 'a' 'b'))).encode LiteralWriter.usual
      ['b', 'z', 'a'] = .ok stream := by
    refine exists_encode_iff.mpr fun symbol _ ↦ exists_encodeSymbol_iff.mpr (Or.inr ⟨?_, _, rfl⟩)
    rw [hsorted]
    rfl
  obtain ⟨stream, hstream⟩ := hwritten
  exact ⟨_, _, decoder, reader, stream, hbook, hwordBook, husable, hdecoder, hstream,
    hrestores stream hstream, hreader, hwords _ _ (husableWords.mpr hspelledWords)
      hreader _ (by decide)⟩

/-- Two rows of which the second has a digit above the length of its codeword. -/
def clashingRows : List (CodeRow Char) :=
  [⟨.symbol 'a', ⟨0, 1⟩, 1⟩, ⟨.symbol 'b', ⟨2, 1⟩, 1⟩]

/-- Two rows are accepted although the codebook writes both of them as the same bit, and then there
is no decoder. -/
theorem ofRows_accepts_clashingRows :
    (∀ row ∈ clashingRows, row.codeword.length ≤ 20) ∧
    ∃ book, ofRows clashingRows = .ok book ∧
      book.rows.map (·.codeword.path) = [[false], [false]] ∧
      ∀ config, ¬ book.IsUsable config ∧
        ∀ decoder, (WindowDecoder.ofCodebook book config).unheard ≠ .ok decoder := by
  have hsorted : sorted clashingRows = clashingRows := List.mergeSort_of_pairwise (by decide)
  have hcodewords : (clashingRows.map (·.codeword)).mergeSort Codeword.precedes =
      clashingRows.map (·.codeword) := List.mergeSort_of_pairwise (by decide)
  have hbook : ofRows clashingRows = .ok (ofSorted clashingRows) := by
    refine ofRows_eq_ok_iff.mpr ⟨by rw [hsorted], ?_⟩
    show Codeword.isPrefixFreeChain ((clashingRows.map (·.codeword)).mergeSort _) = true
    rw [hcodewords]
    decide
  have hnone (config : TableConfig) (decoder : WindowDecoder Char) :
      (WindowDecoder.ofCodebook (ofSorted clashingRows) config).unheard ≠ .ok decoder := by
    intro hdecoder
    have hspelled := (exists_ofCodebook_iff (by decide) hbook).mp ⟨decoder, hdecoder⟩
      ⟨.symbol 'b', ⟨2, 1⟩, 1⟩ (by decide)
    exact absurd hspelled (by decide)
  refine ⟨by decide, _, hbook, by decide, fun config ↦ ⟨fun husable ↦ ?_, hnone config⟩⟩
  obtain ⟨decoder, hdecoder, _⟩ := husable.exists_decoder
  exact hnone config decoder hdecoder

end Codebook

end HuffmanCoding
