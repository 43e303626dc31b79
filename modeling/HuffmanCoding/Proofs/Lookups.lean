import HuffmanCoding.Proofs.StoredRows
import HuffmanCoding.Proofs.TokenOrder

/-!
# Both directions of a codebook

A codebook finds the token of a codeword and the codeword of a token. In the codebook of a tree that
was built both find what the rows say and nothing else, the rows spell the ways to the leaves, and
they give back the same codebook when they are stored, in whatever order they return
(`ofTree_presents_of_build`).

Stored rows may say more than can be found. The check lets no codeword have two rows
(`Codeword.nodup_of_arePrefixFree`), so the token of each row is found by its codeword. But a token
may have two rows, and then only the codeword that was given last is found. So both directions agree
exactly if no token has two rows (`ofRows_agrees_iff`).
-/

set_option autoImplicit false
set_option relaxedAutoImplicit false

namespace HuffmanCoding.Codebook

variable {S : Type} [Symbol S] {rows : List (CodeRow S)} {book : Codebook S}

/-! ### From codewords to tokens -/

/-- If no codeword has two rows, a codeword stands for the token of its row and for no other one. -/
theorem tokenOf?_eq_some_iff (hnodup : (book.rows.map (·.codeword)).Nodup) {codeword : Codeword}
    {token : Token S} : book.tokenOf? codeword = some token ↔
      ∃ row ∈ book.rows, row.codeword = codeword ∧ row.token = token := by
  rw [tokenOf?, Option.map_eq_some_iff]
  constructor
  · rintro ⟨row, hfound, htoken⟩
    exact ⟨row, List.mem_of_find?_eq_some hfound, by simpa using List.find?_some hfound, htoken⟩
  · rintro ⟨row, hrow, rfl, htoken⟩
    have hsome : (book.rows.find? fun other ↦ other.codeword = row.codeword).isSome = true :=
      List.find?_isSome.mpr ⟨row, hrow, decide_eq_true rfl⟩
    obtain ⟨other, hother⟩ := Option.isSome_iff_exists.mp hsome
    have heq : other = row := List.inj_on_of_nodup_map hnodup (List.mem_of_find?_eq_some hother)
      hrow (by simpa using List.find?_some hother)
    exact ⟨row, heq ▸ hother, htoken⟩

theorem nodup_codewords (h : book.isPrefixFree = true) :
    (book.rows.map (·.codeword)).Nodup :=
  Codeword.nodup_of_arePrefixFree h

/-! ### From tokens to codewords -/

/-- In a prefix code the tokens that have a codeword are those of the rows. -/
theorem IsPrefixCode.isSome_codewordFor?_iff (h : book.IsPrefixCode) (token : Token S) :
    (book.codewordFor? token).isSome = true ↔ token ∈ book.rows.map (·.token) := by
  rw [Option.isSome_iff_exists, List.mem_map]
  simp only [h.codewordFor?_eq_some_iff]
  constructor
  · rintro ⟨_, row, hrow, htoken, _⟩
    exact ⟨row, hrow, htoken⟩
  · rintro ⟨row, hrow, htoken⟩
    exact ⟨row.codeword, row, hrow, htoken, rfl⟩

section Last

open scoped Classical in
/-- Other tokens do not matter for what is found. -/
theorem lookUp_filter (rows : List (CodeRow S)) (token : Token S) :
    lookUp (rows.filter fun row ↦ row.token = token) token = lookUp rows token := by
  induction rows using List.reverseRecOn with
  | nil => rfl
  | append_singleton rows last ih =>
    by_cases htoken : last.token = token
    · have hkept : [last].filter (fun row ↦ row.token = token) = [last] := by simp [htoken]
      rw [List.filter_append, hkept, ← htoken, lookUp_append_self, lookUp_append_self]
    · have hdropped : [last].filter (fun row ↦ row.token = token) = [] := by simp [htoken]
      rw [List.filter_append, hdropped, List.append_nil, ih, lookUp_append_of_ne rows htoken]

open scoped Classical in
/-- Sorting keeps the order of the rows with the same token. -/
theorem filter_sorted (rows : List (CodeRow S)) (token : Token S) :
    ((sorted rows).filter fun row ↦ row.token = token) =
      rows.filter fun row ↦ row.token = token := by
  let same := rows.filter fun row ↦ row.token = token
  have hequal : same.Pairwise fun first second ↦
      first.token.precedes second.token = true := by
    refine List.pairwise_of_forall_mem_list fun first hfirst second hsecond ↦ ?_
    have hfirst := of_decide_eq_true (List.mem_filter.mp hfirst).2
    have hsecond := of_decide_eq_true (List.mem_filter.mp hsecond).2
    rw [hfirst, hsecond]
    simpa only [Bool.or_self] using Token.precedes_total token token
  have hsublist : same.Sublist (sorted rows) := by
    refine List.sublist_mergeSort (fun first second third hfirst hsecond ↦ ?_)
      (fun first second ↦ ?_) hequal List.filter_sublist
    · exact Token.precedes_trans hfirst hsecond
    · exact Token.precedes_total first.token second.token
  have hinside := hsublist.filter fun row ↦ decide (row.token = token)
  rw [List.filter_filter] at hinside
  simp only [Bool.and_self] at hinside
  exact (hinside.eq_of_length
    ((List.mergeSort_perm rows _).filter _).length_eq.symm).symm

/-- Sorting does not change what is found for a token. -/
theorem lookUp_sorted (rows : List (CodeRow S)) (token : Token S) :
    lookUp (sorted rows) token = lookUp rows token := by
  rw [← lookUp_filter (sorted rows), filter_sorted, lookUp_filter]

/-- Of several rows with the same token the last one is found. -/
theorem lookUp_of_last {before after : List (CodeRow S)} {row : CodeRow S}
    (hlast : ∀ other ∈ after, other.token ≠ row.token) :
    lookUp (before ++ row :: after) row.token = some row.codeword := by
  induction after using List.reverseRecOn with
  | nil => exact lookUp_append_self before row
  | append_singleton after last ih =>
    rw [← List.cons_append, ← List.append_assoc,
      lookUp_append_of_ne _ (hlast last (by simp))]
    exact ih fun other hother ↦ hlast other (List.mem_append_left _ hother)

end Last

/-! ### The codebook of a tree -/

/-- The codebook lists the leaves of the tree of counts under a configuration, what it finds is what
it lists, and the list gives back the codebook. -/
structure Presents (book : Codebook S) (tree : Tree S) (frequencies : Frequencies S)
    (config : TableConfig) : Prop where
  ascending : book.rows.Pairwise fun first second ↦
    first.token.precedes second.token = true ∧ first.token ≠ second.token
  escape_first : config.hasEscape = true → book.rows.head?.map (·.token) = some .escape
  rows_perm : (book.rows.map fun row ↦
    ((⟨row.token, row.weight⟩ : Leaf S), row.codeword.path)).Perm tree.ways
  isTight : ∀ row ∈ book.rows, row.codeword.IsTight
  tokenOf?_iff : ∀ codeword token, book.tokenOf? codeword = some token ↔
    ∃ row ∈ book.rows, row.codeword = codeword ∧ row.token = token
  codewordFor?_iff : ∀ token codeword, book.codewordFor? token = some codeword ↔
    ∃ row ∈ book.rows, row.token = token ∧ row.codeword = codeword
  isSome_codewordOf?_iff : ∀ symbol,
    (book.codewordOf? symbol).isSome = true ↔ symbol ∈ frequencies.weights
  isSome_escape_iff : book.escape.isSome = true ↔ config.hasEscape = true
  isPrefixFree_eq : book.isPrefixFree = true
  ofRows_eq : ∀ rows, rows.Perm book.rows → ofRows rows = .ok book

section OfTree

variable {frequencies : Frequencies S} {config : TableConfig} {tree : Tree S}

/-- A row of the codebook spells the way to its leaf. -/
theorem map_rows_ofTree_perm (hlongest : tree.longest ≤ 32) :
    ((ofTree tree).rows.map fun row ↦
      ((⟨row.token, row.weight⟩ : Leaf S), row.codeword.path)).Perm tree.ways := by
  refine ((rows_ofTree_perm tree).map _).trans (List.Perm.of_eq ?_)
  rw [List.map_map]
  refine (List.map_congr_left fun way hway ↦ ?_).trans (List.map_id tree.ways)
  exact Prod.ext rfl (path_ofWay hlongest hway)

/-- The escape comes before every symbol. -/
theorem head?_of_escape_mem (hsorted : rows.Pairwise fun first second ↦
    first.token.precedes second.token = true) (h : Token.escape ∈ rows.map (·.token)) :
    rows.head?.map (·.token) = some .escape := by
  obtain ⟨row, hrow, htoken⟩ := List.mem_map.mp h
  cases rows with
  | nil => exact absurd hrow List.not_mem_nil
  | cons first rest =>
    rcases List.mem_cons.mp hrow with rfl | hbehind
    · exact congrArg some htoken
    · have hbefore := List.rel_of_pairwise_cons hsorted hbehind
      rw [htoken] at hbefore
      exact congrArg some (Token.precedes_antisymm hbefore rfl)

/-- A prefix code passes the check. -/
theorem IsPrefixCode.isPrefixFree_eq (h : book.IsPrefixCode) (hlongest : book.longest.toNat ≤ 32) :
    book.isPrefixFree = true := by
  have hpart := h.part
  rw [List.pairwise_map] at hpart
  refine (isPrefixFree_iff (fun row hrow ↦ ?_) fun row hrow ↦ ?_).mpr hpart
  · exact ⟨(h.fits row hrow).length_pos, (h.fits row hrow).isTight⟩
  · exact (h.fits row hrow).length_le.trans hlongest

/-- The rows of a prefix code that are in order give back their codebook, in whatever order they are
given. -/
theorem IsPrefixCode.ofRows_eq {others : List (CodeRow S)} (h : book.IsPrefixCode)
    (hlongest : book.longest.toNat ≤ 32) (hsorted : sorted book.rows = book.rows)
    (hperm : others.Perm book.rows) : ofRows others = .ok book := by
  refine ofRows_eq_ok_iff.mpr ⟨?_, h.isPrefixFree_eq hlongest⟩
  rw [sorted_eq_of_perm hperm h.nodup, hsorted, h.ofSorted_eq]

/-- The codebook of every tree that was built lists its leaves in the order of their tokens, each
with the way to it; both directions find what is listed and nothing else; and the rows give back the
codebook. -/
theorem ofTree_presents_of_build (h : (Tree.build frequencies config).unheard = .ok tree) :
    (ofTree tree).Presents tree frequencies config := by
  have hbook := Tables.isPrefixCode_of_build h
  have hlongest := Tree.longest_le_of_build h
  have hwide : (ofTree tree).longest.toNat ≤ 32 := by
    rw [toNat_longest_ofTree hlongest]
    exact hlongest
  have hsorted : (ofTree tree).rows.Pairwise fun first second ↦
      first.token.precedes second.token = true := pairwise_sorted tree.rows
  have htokens (token : Token S) : token ∈ (ofTree tree).rows.map (·.token) ↔
      token ∈ (alphabet frequencies config).map (·.token) := by
    rw [(tokens_ofTree_perm tree).mem_iff,
      ((Tree.isTreeWithin_of_build h).contents_perm.map (·.token)).mem_iff]
  have hfree := hbook.isPrefixFree_eq hwide
  refine ⟨hsorted.and (List.pairwise_map.mp hbook.nodup), fun hescape ↦ ?_,
    map_rows_ofTree_perm hlongest, fun row hrow ↦ (hbook.fits row hrow).isTight,
    fun codeword token ↦ tokenOf?_eq_some_iff (nodup_codewords hfree),
    fun token codeword ↦ hbook.codewordFor?_eq_some_iff token, fun symbol ↦ ?_, ?_, hfree,
    fun others hperm ↦ hbook.ofRows_eq hwide (List.mergeSort_of_pairwise hsorted) hperm⟩
  · refine head?_of_escape_mem hsorted ((htokens _).mpr ?_)
    exact (Tree.escape_mem_alphabet_iff frequencies config).mpr hescape
  · rw [← Tree.symbol_mem_alphabet_iff frequencies config, ← htokens]
    exact hbook.isSome_codewordFor?_iff (.symbol symbol)
  · rw [← Tree.escape_mem_alphabet_iff frequencies config, ← htokens]
    exact hbook.isSome_codewordFor?_iff .escape

/-- The codebook of three letters and an escape lists four leaves, and that of a lone letter lists
the codeword zero. -/
theorem ofTree_presents_of_three_letters :
    let frequencies := ((Frequencies.empty.add 'a' 5).add 'b' 2).add 'c' 1
    (∃ tree : Tree Char, (Tree.build frequencies .standard).unheard = .ok tree ∧
      (ofTree tree).Presents tree frequencies .standard ∧ (ofTree tree).rows.length = 4) ∧
    ∃ tree : Tree Char, (Tree.build (Frequencies.empty.add 'a' 1) .strict).unheard = .ok tree ∧
      (ofTree tree).Presents tree (Frequencies.empty.add 'a' 1) .strict ∧
      (ofTree tree).codewordOf? 'a' = some ⟨0, 1⟩ := by
  intro frequencies
  constructor
  · have hcodable : Tree.IsCodable frequencies .standard :=
      Tree.isCodable_iff.mpr ⟨by decide, by decide +kernel, by decide +kernel⟩
    obtain ⟨tree, htree, _⟩ := hcodable.exists_build
    have htokens : tokenCount frequencies .standard = 4 := by decide +kernel
    exact ⟨tree, htree, ofTree_presents_of_build htree,
      ((size_ofTree tree).trans (Tree.leafCount_of_build htree)).trans htokens⟩
  · have htree : (Tree.build (Frequencies.empty.add 'a' 1) .strict).unheard =
        .ok (.leaf 0 ⟨.symbol 'a', 1⟩) := rfl
    have hpresents := ofTree_presents_of_build htree
    have hrows : (ofTree (.leaf 0 ⟨.symbol 'a', 1⟩)).rows = [⟨.symbol 'a', ⟨0, 1⟩, 1⟩] :=
      List.mergeSort_singleton _
    refine ⟨_, htree, hpresents, (hpresents.codewordFor?_iff (.symbol 'a') _).mpr ?_⟩
    exact ⟨⟨.symbol 'a', ⟨0, 1⟩, 1⟩, by simp [hrows], rfl, rfl⟩

end OfTree

/-! ### Codebooks from stored rows -/

/-- Both directions agree: each row is found by its codeword and by its token. -/
def Agrees (book : Codebook S) : Prop :=
  ∀ row ∈ book.rows, book.tokenOf? row.codeword = some row.token ∧
    book.codewordFor? row.token = some row.codeword

/-- In a codebook from accepted rows each codeword stands for the token of its row, and a token has
the codeword that was given last for it. So both directions agree exactly if no token has two
rows. -/
theorem ofRows_agrees_iff (h : ofRows rows = .ok book) :
    book.rows.Perm rows ∧
    (∀ row ∈ book.rows, book.tokenOf? row.codeword = some row.token) ∧
    (∀ before row after, rows = before ++ row :: after →
      (∀ other ∈ after, other.token ≠ row.token) →
        book.codewordFor? row.token = some row.codeword) ∧
    (book.Agrees ↔ (rows.map (·.token)).Nodup) := by
  have hperm := rows_perm_of_ofRows h
  have hbook := ofSorted_eq_of_ofRows h
  obtain ⟨hsorted, hfree⟩ := ofRows_eq_ok_iff.mp h
  have hcodewords := nodup_codewords hfree
  have htokenOf (row : CodeRow S) (hrow : row ∈ book.rows) :
      book.tokenOf? row.codeword = some row.token :=
    (tokenOf?_eq_some_iff hcodewords).mpr ⟨row, hrow, rfl, rfl⟩
  refine ⟨hperm, htokenOf, ?_, ?_⟩
  · rintro before row after rfl hlast
    rw [codewordFor?_eq_lookUp hbook, ← hsorted]
    exact (lookUp_sorted _ _).trans (lookUp_of_last hlast)
  · rw [← (hperm.map (·.token)).nodup_iff]
    constructor
    · intro hagrees
      rw [List.Nodup, List.pairwise_map] at hcodewords ⊢
      refine hcodewords.imp_of_mem fun {first second} hfirst hsecond hne heq ↦ hne ?_
      have hfound := (hagrees first hfirst).2
      rw [heq, (hagrees second hsecond).2] at hfound
      exact (Option.some.inj hfound).symm
    · intro hnodup row hrow
      refine ⟨htokenOf row hrow, ?_⟩
      rw [codewordFor?_eq_lookUp hbook, lookUp_eq_some_iff hnodup]
      exact ⟨row, hrow, rfl, rfl⟩

/-- Both directions agree on rows for an escape and two letters. -/
theorem ofRows_agrees_of_threeRows :
    ∃ book, ofRows (threeRows 'a' 'b') = .ok book ∧ book.Agrees ∧
      book.codewordOf? 'b' = some ⟨3, 2⟩ := by
  have hbook := ofRows_of_part (show ∀ row ∈ threeRows 'a' 'b', row.codeword.IsSpelledOut by decide)
    (by decide) (by decide)
  obtain ⟨_, _, hlast, hagrees⟩ := ofRows_agrees_iff hbook
  exact ⟨_, hbook, hagrees.mpr (by decide),
    hlast ((threeRows 'a' 'b').take 2) ⟨.symbol 'b', ⟨3, 2⟩, 2⟩ [] rfl (by simp)⟩

/-- Four rows with different codewords, of which two hold the escape and two the same letter. -/
def doubledRows : List (CodeRow Char) :=
  [⟨.escape, ⟨0, 2⟩, 1⟩, ⟨.escape, ⟨1, 2⟩, 1⟩, ⟨.symbol 'a', ⟨2, 2⟩, 1⟩, ⟨.symbol 'a', ⟨3, 2⟩, 1⟩]

/-- Rows with the same token are accepted, and then the codewords of the escape and of the letter
are not those of their first rows. -/
theorem ofRows_accepts_doubledRows :
    (∀ row ∈ doubledRows, row.codeword.length ≤ 20) ∧
    ∃ book, ofRows doubledRows = .ok book ∧ book.rows = doubledRows ∧
      book.codewordOf? 'a' = some ⟨3, 2⟩ ∧ book.escape = some ⟨1, 2⟩ ∧ ¬ book.Agrees := by
  have hsorted : sorted doubledRows = doubledRows := List.mergeSort_of_pairwise (by decide)
  have hbook := ofRows_of_part (show ∀ row ∈ doubledRows, row.codeword.IsSpelledOut by decide)
    (by decide) (by decide)
  rw [hsorted] at hbook
  have hletter : (ofSorted doubledRows).codewordOf? 'a' = some ⟨3, 2⟩ :=
    lookUp_append_self (doubledRows.take 3) ⟨.symbol 'a', ⟨3, 2⟩, 1⟩
  refine ⟨by decide, _, hbook, rfl, hletter, rfl, fun hagrees ↦ ?_⟩
  have hfound : (ofSorted doubledRows).escape = some ⟨0, 2⟩ :=
    (hagrees ⟨.escape, ⟨0, 2⟩, 1⟩ (by decide)).2
  exact absurd hfound (by decide)

end HuffmanCoding.Codebook
