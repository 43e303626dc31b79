import HuffmanCoding.Codebook
import HuffmanCoding.Proofs.Tree.Paths
import HuffmanCoding.Proofs.WindowTable
import Mathlib.Data.List.Perm.Basic
import Mathlib.Data.List.Nodup
import Mathlib.Order.Bounds.Basic

/-!
# The codebook of a tree

The rows of a tree spell the ways to its leaves, where a lone leaf has the way zero
(`Tree.rows_eq_ways`). Its codebook has the same rows in the order of their tokens, hence a prefix
code whose codewords have at least one bit (`isPrefixCode_ofTree`), and its longest codeword is as
long as the tree says (`toNat_longest_ofTree`).

Looking up a token finds the last row with this token. In a prefix code this is the only one
(`IsPrefixCode.lookUp_eq_some_iff`).
-/

set_option autoImplicit false
set_option relaxedAutoImplicit false

namespace HuffmanCoding

variable {S : Type}

/-- The row of a leaf, given the way to it. -/
def CodeRow.ofWay (way : Leaf S × Bits) : CodeRow S :=
  ⟨way.1.token, Codeword.empty.extend way.2, way.1.weight⟩

/-! ### The ways that are spelled -/

namespace Tree

/-- The leaves from left to right, each with the way that its codeword spells. -/
def ways : Tree S → List (Leaf S × Bits)
  | leaf _ content => [(content, [false])]
  | tree => tree.paths

theorem ways_eq_paths {tree : Tree S} (h : tree.isLeaf = false) : tree.ways = tree.paths := by
  cases tree with
  | leaf position content => simp [isLeaf] at h
  | node position weight left right => rfl

/-- The rows of a tree spell the ways to its leaves. -/
theorem rows_eq_ways (tree : Tree S) : tree.rows = tree.ways.map CodeRow.ofWay := by
  cases tree with
  | leaf position content => rfl
  | node position weight left right => exact rowsBelow_eq_paths _ _

theorem contents_eq_ways (tree : Tree S) : tree.contents = tree.ways.map (·.1) := by
  cases tree with
  | leaf position content => rfl
  | node position weight left right => exact contents_eq_paths _

/-- No spelled way begins another one. -/
theorem pairwise_ways (tree : Tree S) :
    tree.ways.Pairwise fun first second ↦ Bits.Part first.2 second.2 := by
  cases tree with
  | leaf position content => exact List.pairwise_singleton _ _
  | node position weight left right => exact pairwise_paths _

/-- Each codeword has a bit, and the length of one of them is the greatest. -/
theorem isGreatest_longest (tree : Tree S) :
    (∀ way ∈ tree.ways, 0 < way.2.length ∧ way.2.length ≤ tree.longest) ∧
      ∃ way ∈ tree.ways, way.2.length = tree.longest := by
  cases tree with
  | leaf position content => simp [ways, longest, depth]
  | node position weight left right =>
    have hinner : (node position weight left right).isLeaf = false := rfl
    have hlongest : (node position weight left right).longest =
        (node position weight left right).depth := by
      rw [longest, depth]
      omega
    rw [ways_eq_paths hinner, hlongest]
    constructor
    · intro way hway
      have hmem : way.2.length ∈ (node position weight left right).depths := by
        rw [depths_eq_paths]
        exact List.mem_map_of_mem hway
      exact ⟨pos_of_mem_depths hinner hmem, le_depth_of_mem_depths hmem⟩
    · have hmem := depth_mem_depths (node position weight left right)
      rw [depths_eq_paths] at hmem
      exact List.mem_map.mp hmem

end Tree

namespace Codebook

variable [Symbol S]

/-! ### Looking up tokens -/

/-- The codeword of a token in some rows, if there is one. -/
def lookUp (rows : List (CodeRow S)) : Token S → Option Codeword
  | .symbol symbol => (codewordsOf rows)[symbol]?
  | .escape => escapeOf rows

/-- A row replaces what was found for its token before. -/
theorem lookUp_append_self (rows : List (CodeRow S)) (row : CodeRow S) :
    lookUp (rows ++ [row]) row.token = some row.codeword := by
  obtain ⟨token, codeword, weight⟩ := row
  cases token with
  | escape => simp [lookUp, escapeOf, Token.isEscape]
  | symbol symbol => simp [lookUp, codewordsOf]

/-- A row changes nothing for other tokens. -/
theorem lookUp_append_of_ne (rows : List (CodeRow S)) {row : CodeRow S} {token : Token S}
    (h : row.token ≠ token) : lookUp (rows ++ [row]) token = lookUp rows token := by
  obtain ⟨last, codeword, weight⟩ := row
  cases last with
  | escape =>
    cases token with
    | escape => exact absurd rfl h
    | symbol symbol => simp [lookUp, codewordsOf]
  | symbol last =>
    cases token with
    | escape => simp [lookUp, escapeOf, Token.isEscape]
    | symbol symbol =>
      have hne : last ≠ symbol := fun heq ↦ h (congrArg Token.symbol heq)
      simp [lookUp, codewordsOf, Std.HashMap.getElem?_insert, hne]

/-- What is found for a token stands in a row with this token. -/
theorem exists_row_of_lookUp {rows : List (CodeRow S)} {token : Token S} {codeword : Codeword}
    (h : lookUp rows token = some codeword) :
    ∃ row ∈ rows, row.token = token ∧ row.codeword = codeword := by
  induction rows using List.reverseRecOn with
  | nil => cases token <;> simp [lookUp, codewordsOf, escapeOf] at h
  | append_singleton rows last ih =>
    by_cases htoken : last.token = token
    · subst htoken
      rw [lookUp_append_self, Option.some.injEq] at h
      exact ⟨last, by simp, rfl, h⟩
    · rw [lookUp_append_of_ne rows htoken] at h
      obtain ⟨row, hrow, hfound⟩ := ih h
      exact ⟨row, List.mem_append_left _ hrow, hfound⟩

/-- A token of which there is only one row has the codeword of this row. -/
theorem lookUp_eq_some_iff {rows : List (CodeRow S)} (hnodup : (rows.map (·.token)).Nodup)
    {token : Token S} {codeword : Codeword} : lookUp rows token = some codeword ↔
      ∃ row ∈ rows, row.token = token ∧ row.codeword = codeword := by
  refine ⟨exists_row_of_lookUp, ?_⟩
  rintro ⟨row, hrow, rfl, rfl⟩
  induction rows using List.reverseRecOn with
  | nil => exact absurd hrow List.not_mem_nil
  | append_singleton rows last ih =>
    rw [List.map_append, List.nodup_append] at hnodup
    obtain ⟨hrows, _, hdisjoint⟩ := hnodup
    rcases List.mem_append.mp hrow with hold | hnew
    · have hne : last.token ≠ row.token :=
        (hdisjoint _ (List.mem_map_of_mem hold) _ (List.mem_map_of_mem (by simp))).symm
      rw [lookUp_append_of_ne rows hne]
      exact ih hrows hold
    · rw [List.mem_singleton.mp hnew]
      exact lookUp_append_self rows last

/-- The codeword of a token, if it has one. -/
def codewordFor? (book : Codebook S) : Token S → Option Codeword
  | .symbol symbol => book.codewordOf? symbol
  | .escape => book.escape

/-- If nothing but the rows is found, the codeword of a token is found in the rows. -/
theorem codewordFor?_eq_lookUp {book : Codebook S} (hbook : ofSorted book.rows = book)
    (token : Token S) : book.codewordFor? token = lookUp book.rows token := by
  conv_lhs => rw [← hbook]
  cases token <;> rfl

/-- The codeword of a symbol stands in a row, if nothing but the rows is found. -/
theorem exists_row_of_codewordOf? {book : Codebook S} (hbook : ofSorted book.rows = book)
    {symbol : S} {codeword : Codeword} (h : book.codewordOf? symbol = some codeword) :
    ∃ row ∈ book.rows, row.token = .symbol symbol ∧ row.codeword = codeword := by
  rw [← hbook] at h
  exact exists_row_of_lookUp h

/-- The codeword that announces a literal stands in a row, if nothing but the rows is found. -/
theorem exists_row_of_escape {book : Codebook S} (hbook : ofSorted book.rows = book)
    {codeword : Codeword} (h : book.escape = some codeword) :
    ∃ row ∈ book.rows, row.token = .escape ∧ row.codeword = codeword := by
  rw [← hbook] at h
  exact exists_row_of_lookUp h

/-! ### Lengths -/

theorem toNat_max (first second : UInt8) :
    (max first second).toNat = max first.toNat second.toNat := by
  change (if first ≤ second then second else first).toNat = _
  split_ifs with hle
  · exact (Nat.max_eq_right hle).symm
  · exact (Nat.max_eq_left (Nat.le_of_not_le hle)).symm

theorem toNat_longest_append (rows : List (CodeRow S)) (row : CodeRow S) :
    (ofSorted (rows ++ [row])).longest.toNat =
      max (ofSorted rows).longest.toNat row.codeword.length.toNat := by
  rw [← toNat_max]
  simp [longest, ofSorted, List.foldl_append]

/-- The greatest length is that of a codeword, and no codeword is longer. -/
theorem isGreatest_longest {rows : List (CodeRow S)} (h : rows ≠ []) :
    IsGreatest {length | ∃ row ∈ rows, row.codeword.length.toNat = length}
      (ofSorted rows).longest.toNat := by
  induction rows using List.reverseRecOn with
  | nil => exact absurd rfl h
  | append_singleton rows last ih =>
    rw [toNat_longest_append]
    by_cases hrows : rows = []
    · subst hrows
      simp [ofSorted, longest, IsGreatest, upperBounds]
    · obtain ⟨⟨row, hrow, hlongest⟩, hupper⟩ := ih hrows
      refine ⟨?_, ?_⟩
      · rcases max_choice (ofSorted rows).longest.toNat last.codeword.length.toNat with hmax | hmax
        · exact ⟨row, List.mem_append_left _ hrow, hlongest.trans hmax.symm⟩
        · exact ⟨last, by simp, hmax.symm⟩
      · rintro length ⟨other, hother, rfl⟩
        rcases List.mem_append.mp hother with hold | hnew
        · exact (hupper ⟨other, hold, rfl⟩).trans (Nat.le_max_left _ _)
        · rw [List.mem_singleton.mp hnew]
          exact Nat.le_max_right _ _

/-! ### Codebooks that are prefix codes -/

/-- Each token of the codebook has one codeword, and no codeword begins another one. -/
structure IsPrefixCode (book : Codebook S) : Prop where
  ofSorted_eq : ofSorted book.rows = book
  nodup : (book.rows.map (·.token)).Nodup
  fits : ∀ row ∈ book.rows, WindowTable.Fits book.longest.toNat row.codeword
  part : (book.rows.map (·.codeword)).Pairwise fun first second ↦
    Bits.Part first.path second.path

theorem IsPrefixCode.codewordFor?_eq_some_iff {book : Codebook S} (h : book.IsPrefixCode)
    (token : Token S) {codeword : Codeword} : book.codewordFor? token = some codeword ↔
      ∃ row ∈ book.rows, row.token = token ∧ row.codeword = codeword := by
  rw [codewordFor?_eq_lookUp h.ofSorted_eq, lookUp_eq_some_iff h.nodup]

theorem IsPrefixCode.codewordOf?_eq_some_iff {book : Codebook S} (h : book.IsPrefixCode)
    {symbol : S} {codeword : Codeword} : book.codewordOf? symbol = some codeword ↔
      ∃ row ∈ book.rows, row.token = .symbol symbol ∧ row.codeword = codeword :=
  h.codewordFor?_eq_some_iff (.symbol symbol)

theorem IsPrefixCode.escape_eq_some_iff {book : Codebook S} (h : book.IsPrefixCode)
    {codeword : Codeword} : book.escape = some codeword ↔
      ∃ row ∈ book.rows, row.token = .escape ∧ row.codeword = codeword :=
  h.codewordFor?_eq_some_iff .escape

/-! ### The codebook of a tree -/

section OfTree

variable {tree : Tree S}

theorem rows_ofTree_perm (tree : Tree S) :
    (ofTree tree).rows.Perm (tree.ways.map CodeRow.ofWay) := by
  rw [← Tree.rows_eq_ways]
  exact List.mergeSort_perm _ _

/-- The tokens of the codebook are those of the tree. -/
theorem tokens_ofTree_perm (tree : Tree S) :
    ((ofTree tree).rows.map (·.token)).Perm (tree.contents.map (·.token)) := by
  have hperm := (rows_ofTree_perm tree).map (·.token)
  rw [List.map_map] at hperm
  rw [Tree.contents_eq_ways, List.map_map]
  exact hperm

/-- There are as many rows as leaves. -/
theorem size_ofTree (tree : Tree S) : (ofTree tree).size = tree.leafCount := by
  have hperm := (tokens_ofTree_perm tree).length_eq
  rwa [List.length_map, List.length_map, Tree.length_contents] at hperm

theorem exists_way_of_mem_rows {row : CodeRow S} (h : row ∈ (ofTree tree).rows) :
    ∃ way ∈ tree.ways, CodeRow.ofWay way = row :=
  List.mem_map.mp ((rows_ofTree_perm tree).mem_iff.mp h)

omit [Symbol S] in
theorem length_ofWay (hlongest : tree.longest ≤ 32) {way : Leaf S × Bits} (h : way ∈ tree.ways) :
    (CodeRow.ofWay way).codeword.length.toNat = way.2.length :=
  Codeword.length_empty_extend ((tree.isGreatest_longest.1 way h).2.trans hlongest)

omit [Symbol S] in
theorem path_ofWay (hlongest : tree.longest ≤ 32) {way : Leaf S × Bits} (h : way ∈ tree.ways) :
    (CodeRow.ofWay way).codeword.path = way.2 :=
  Codeword.path_empty_extend ((tree.isGreatest_longest.1 way h).2.trans hlongest)

/-- The longest codeword is as long as the tree says. -/
theorem toNat_longest_ofTree (hlongest : tree.longest ≤ 32) :
    (ofTree tree).longest.toNat = tree.longest := by
  obtain ⟨hways, deepest, hdeepest, heq⟩ := tree.isGreatest_longest
  have hmem : CodeRow.ofWay deepest ∈ (ofTree tree).rows :=
    (rows_ofTree_perm tree).mem_iff.mpr (List.mem_map_of_mem hdeepest)
  have hgreatest := isGreatest_longest (List.ne_nil_of_mem hmem)
  refine hgreatest.unique ⟨⟨_, hmem, (length_ofWay hlongest hdeepest).trans heq⟩, ?_⟩
  rintro length ⟨row, hrow, rfl⟩
  obtain ⟨way, hway, rfl⟩ := exists_way_of_mem_rows hrow
  rw [length_ofWay hlongest hway]
  exact (hways way hway).2

/-- A tree that is not too deep for codewords and has no token twice has a prefix code. -/
theorem isPrefixCode_ofTree (hlongest : tree.longest ≤ 32)
    (hnodup : (tree.contents.map (·.token)).Nodup) : (ofTree tree).IsPrefixCode where
  ofSorted_eq := rfl
  nodup := (tokens_ofTree_perm tree).nodup_iff.mpr hnodup
  fits := by
    intro row hrow
    obtain ⟨way, hway, rfl⟩ := exists_way_of_mem_rows hrow
    obtain ⟨hpos, hle⟩ := tree.isGreatest_longest.1 way hway
    rw [toNat_longest_ofTree hlongest]
    exact ⟨by rwa [length_ofWay hlongest hway], by rwa [length_ofWay hlongest hway],
      Codeword.isTight_empty_extend (hle.trans hlongest)⟩
  part := by
    have hpart : (tree.ways.map CodeRow.ofWay).Pairwise fun first second ↦
        Bits.Part first.codeword.path second.codeword.path := by
      rw [List.pairwise_map]
      refine tree.pairwise_ways.imp_of_mem fun {first second} hfirst hsecond hpart ↦ ?_
      rw [path_ofWay hlongest hfirst, path_ofWay hlongest hsecond]
      exact hpart
    rw [List.pairwise_map]
    exact ((rows_ofTree_perm tree).symm.pairwise hpart fun h ↦ h.symm)

end OfTree

end Codebook

end HuffmanCoding
