import HuffmanCoding.Proofs.StoredRows

/-!
# Overlaps of stored rows

Stored rows with codewords of up to 32 bits are accepted exactly if no codeword begins the codeword
of another row, and equal codewords begin each other (`Codebook.ofRows_isExact`). The check looks at
neighbours only (`Codeword.isPrefixFreeChain_iff_neighbours`). This is enough in any arrangement by
the streams that start with the codewords: there some neighbours overlap as soon as any two
codewords do, however far apart they stand (`Codeword.areApart_iff_neighbours`).
-/

set_option autoImplicit false
set_option relaxedAutoImplicit false

namespace HuffmanCoding

open WindowTable

namespace Codeword

/-- The check of a list compares each codeword with the one right behind it. -/
theorem isPrefixFreeChain_iff_neighbours {codewords : List Codeword} :
    isPrefixFreeChain codewords = true ↔ ∀ (place : ℕ) (first second : Codeword),
      codewords[place]? = some first → codewords[place + 1]? = some second →
        first.begins second = false := by
  induction codewords with
  | nil => simp [isPrefixFreeChain]
  | cons first rest ih =>
    cases rest with
    | nil => simp [isPrefixFreeChain]
    | cons second rest =>
      rw [isPrefixFreeChain, Bool.and_eq_true, Bool.not_eq_true', ih]
      constructor
      · rintro ⟨hhead, htail⟩ place earlier later hearlier hlater
        cases place with
        | zero =>
          cases hearlier
          cases hlater
          exact hhead
        | succ place => exact htail place earlier later hearlier hlater
      · intro hall
        exact ⟨hall 0 first second rfl rfl, fun place ↦ hall (place + 1)⟩

/-- In an arrangement of codewords by the streams that start with them, all of them are apart as
soon as no codeword begins the one right behind it. -/
theorem areApart_iff_neighbours {codewords arranged : List Codeword}
    (hfits : ∀ codeword ∈ codewords, Fits 32 codeword) (hperm : arranged.Perm codewords)
    (hsorted : arranged.Pairwise fun first second ↦ first.precedes second = true) :
    AreApart codewords ↔ ∀ (place : ℕ) (first second : Codeword),
      arranged[place]? = some first → arranged[place + 1]? = some second →
        ¬ first.path <+: second.path := by
  have hkept : ∀ codeword ∈ arranged, Fits 32 codeword :=
    fun codeword hmem ↦ hfits codeword (hperm.mem_iff.mp hmem)
  rw [areApart_iff, ← hperm.pairwise_iff fun h ↦ h.symm, ← isPrefixFreeChain_iff hkept hsorted,
    isPrefixFreeChain_iff_neighbours]
  refine forall_congr' fun place ↦ forall₂_congr fun first second ↦ ?_
  refine forall₂_congr fun hfirst hsecond ↦ ?_
  rw [← Bool.not_eq_true, begins_iff (hkept first (List.mem_of_getElem? hfirst)).isTight
    (hkept second (List.mem_of_getElem? hsecond)).isTight]

end Codeword

namespace Codebook

variable {S : Type} [Symbol S] {rows : List (CodeRow S)}

/-- Rows are either accepted or refused for an overlap. -/
theorem ofRows_cases (rows : List (CodeRow S)) : (∃ book, ofRows rows = .ok book) ∨
    ofRows rows = .error (.notPrefixFree "overlapping code rows") := by
  simp only [ofRows]
  split_ifs
  · exact Or.inl ⟨_, rfl⟩
  · exact Or.inr rfl

/-- Rows with spelled out codewords of up to 32 bits are accepted exactly if the codewords are
apart. -/
theorem exists_ofRows_iff (hspelled : ∀ row ∈ rows, row.codeword.IsSpelledOut)
    (hlength : ∀ row ∈ rows, row.codeword.length.toNat ≤ 32) :
    (∃ book, ofRows rows = .ok book) ↔ Codeword.AreApart (rows.map (·.codeword)) := by
  rw [Codeword.areApart_iff, List.pairwise_map]
  constructor
  · rintro ⟨book, hbook⟩
    have hperm := rows_perm_of_ofRows hbook
    have hpart := (isPrefixFree_iff (fun row hrow ↦ hspelled row (hperm.mem_iff.mp hrow))
      fun row hrow ↦ hlength row (hperm.mem_iff.mp hrow)).mp (ofRows_eq_ok_iff.mp hbook).2
    exact hperm.pairwise hpart fun h ↦ h.symm
  · intro hpart
    exact ⟨_, ofRows_of_part hspelled hlength hpart⟩

/-- Rows whose codewords have one to 32 bits and no digit above their length are accepted exactly if
no codeword begins the codeword of another row, and are refused for an overlap otherwise. To find
any overlap it is enough to compare neighbours, after the codewords were arranged by the streams
that start with them. -/
theorem ofRows_isExact (rows : List (CodeRow S))
    (hspelled : ∀ row ∈ rows, row.codeword.IsSpelledOut)
    (hlength : ∀ row ∈ rows, row.codeword.length ≤ 32) :
    ((∃ book, ofRows rows = .ok book) ↔ Codeword.AreApart (rows.map (·.codeword))) ∧
    (¬ Codeword.AreApart (rows.map (·.codeword)) →
      ofRows rows = .error (.notPrefixFree "overlapping code rows")) ∧
    ∀ arranged : List Codeword, arranged.Perm (rows.map (·.codeword)) →
      (arranged.Pairwise fun first second ↦ first.precedes second = true) →
        (Codeword.AreApart (rows.map (·.codeword)) ↔
          ∀ (place : ℕ) (first second : Codeword), arranged[place]? = some first →
            arranged[place + 1]? = some second → ¬ first.path <+: second.path) := by
  have hbound (row : CodeRow S) (hrow : row ∈ rows) : row.codeword.length.toNat ≤ 32 :=
    UInt8.le_iff_toNat_le.mp (hlength row hrow)
  have hiff := exists_ofRows_iff hspelled hbound
  refine ⟨hiff, fun hoverlap ↦ ?_, fun arranged hperm hsorted ↦ ?_⟩
  · exact (ofRows_cases rows).resolve_left (mt hiff.mp hoverlap)
  · refine Codeword.areApart_iff_neighbours (fun codeword hcodeword ↦ ?_) hperm hsorted
    obtain ⟨row, hrow, rfl⟩ := List.mem_map.mp hcodeword
    exact ⟨(hspelled row hrow).1, hbound row hrow, (hspelled row hrow).2⟩

/-- Four rows, of which the first and the last overlap, with two others between them. -/
def distantRows : List (CodeRow Char) :=
  [⟨.symbol 'a', ⟨1, 1⟩, 1⟩, ⟨.symbol 'b', ⟨0, 2⟩, 1⟩, ⟨.symbol 'c', ⟨1, 2⟩, 1⟩,
    ⟨.symbol 'd', ⟨0xFFFFFFFF, 32⟩, 1⟩]

/-- Rows are refused where the first codeword begins the last one, and they are accepted without the
last one. -/
theorem ofRows_isExact_of_distantRows :
    (∀ row ∈ distantRows, row.codeword.IsSpelledOut ∧ row.codeword.length ≤ 32) ∧
    ofRows distantRows = .error (.notPrefixFree "overlapping code rows") ∧
    ∃ book, ofRows (distantRows.take 3) = .ok book := by
  have hall : ∀ row ∈ distantRows, row.codeword.IsSpelledOut ∧ row.codeword.length ≤ 32 := by
    decide
  obtain ⟨_, hrefused, _⟩ := ofRows_isExact distantRows (fun row hrow ↦ (hall row hrow).1)
    fun row hrow ↦ (hall row hrow).2
  obtain ⟨haccepted, _⟩ := ofRows_isExact (distantRows.take 3) (by decide) (by decide)
  refine ⟨hall, hrefused ?_, haccepted.mpr ?_⟩
  · rw [Codeword.areApart_iff]
    decide
  · rw [Codeword.areApart_iff]
    decide

end Codebook

end HuffmanCoding
