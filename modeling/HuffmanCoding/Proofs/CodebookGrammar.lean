import HuffmanCoding.Proofs.Accepting
import HuffmanCoding.Proofs.WindowDecoder

/-!
# The grammar of a codebook

A codebook spells a symbol by its codeword, or by the escape and a literal (`Codebook.grammar`).
What it writes is spelled so (`grammar_of_encodeSymbol`), and a decoder that serves a prefix code
accepts this grammar as soon as its reader of literals accepts theirs (`Serves.accepts_readSymbol`).
In particular the zeros that a window shows behind the end never make up a codeword
(`Serves.obeys_readToken`).

In a prefix code a spelling shows where it ends, if a literal does
(`IsPrefixCode.isSelfDelimiting_grammar`).
-/

set_option autoImplicit false
set_option relaxedAutoImplicit false

namespace HuffmanCoding

variable {S : Type}

/-- Behind the codeword of a symbol stands nothing, and behind the escape a literal. -/
def Token.remainder (literal : Grammar S) : Token S → Grammar S
  | .symbol content => fun rest read ↦ rest = [] ∧ read = content
  | .escape => literal

theorem Token.isSelfDelimiting_remainder {literal : Grammar S} (h : literal.IsSelfDelimiting)
    (token : Token S) : (token.remainder literal).IsSelfDelimiting := by
  cases token with
  | escape => exact h
  | symbol symbol =>
    intro first second whole value other hfirst hsecond _ _
    rw [hfirst.1, hsecond.1]

namespace Codebook

variable [Symbol S] {book : Codebook S} {literal : Grammar S}

/-- A symbol is spelled by its codeword, or by the escape, if there is one, and a literal. -/
def grammar (book : Codebook S) (literal : Grammar S) : Grammar S := fun bits symbol ↦
  (∃ codeword, book.codewordOf? symbol = some codeword ∧ bits = codeword.path) ∨
    ∃ escape rest, book.escape = some escape ∧ literal rest symbol ∧ bits = escape.path ++ rest

/-- Every spelling begins with the codeword of a row. -/
theorem IsPrefixCode.grammar_iff (h : book.IsPrefixCode) {bits : Bits} {symbol : S} :
    book.grammar literal bits symbol ↔ ∃ row ∈ book.rows, ∃ rest,
      row.token.remainder literal rest symbol ∧ bits = row.codeword.path ++ rest := by
  constructor
  · intro hspelled
    rcases hspelled with ⟨codeword, hcodeword, rfl⟩ | ⟨escape, rest, hescape, hrest, rfl⟩
    · obtain ⟨row, hrow, htoken, rfl⟩ := h.codewordOf?_eq_some_iff.mp hcodeword
      refine ⟨row, hrow, [], ?_, (List.append_nil _).symm⟩
      rw [htoken]
      exact ⟨rfl, rfl⟩
    · obtain ⟨row, hrow, htoken, rfl⟩ := h.escape_eq_some_iff.mp hescape
      refine ⟨row, hrow, rest, ?_, rfl⟩
      rw [htoken]
      exact hrest
  · intro hspelled
    obtain ⟨row, hrow, rest, hrest, rfl⟩ := hspelled
    cases htoken : row.token with
    | escape =>
      rw [htoken] at hrest
      exact Or.inr ⟨row.codeword, rest, h.escape_eq_some_iff.mpr ⟨row, hrow, htoken, rfl⟩,
        hrest, rfl⟩
    | symbol other =>
      rw [htoken] at hrest
      obtain ⟨rfl, rfl⟩ := hrest
      exact Or.inl ⟨row.codeword, h.codewordOf?_eq_some_iff.mpr ⟨row, hrow, htoken, rfl⟩,
        List.append_nil _⟩

/-- Rows whose codewords begin the same bits are the same. -/
theorem IsPrefixCode.row_eq (h : book.IsPrefixCode) {first second : CodeRow S}
    (hfirst : first ∈ book.rows) (hsecond : second ∈ book.rows) {whole : Bits}
    (hfirstWhole : first.codeword.path <+: whole) (hsecondWhole : second.codeword.path <+: whole) :
    first = second := by
  by_contra hne
  have hpart := h.part
  rw [List.pairwise_map] at hpart
  have hsymm : Std.Symm fun (one another : CodeRow S) ↦
      Bits.Part one.codeword.path another.codeword.path := ⟨fun _ _ h ↦ h.symm⟩
  exact Bits.not_part_of_prefix hfirstWhole hsecondWhole (hpart.forall hfirst hsecond hne)

/-- A prefix code spells symbols so that the end of a spelling shows, if it shows of a literal. -/
theorem IsPrefixCode.isSelfDelimiting_grammar (h : book.IsPrefixCode)
    (hliteral : literal.IsSelfDelimiting) : (book.grammar literal).IsSelfDelimiting := by
  intro first second whole value other hfirst hsecond hfirstWhole hsecondWhole
  obtain ⟨row, hrow, rest, hrest, rfl⟩ := h.grammar_iff.mp hfirst
  obtain ⟨row', hrow', rest', hrest', rfl⟩ := h.grammar_iff.mp hsecond
  have hbegin := (List.prefix_append row.codeword.path rest).trans hfirstWhole
  have hsame : row = row' :=
    h.row_eq hrow hrow' hbegin ((List.prefix_append _ _).trans hsecondWhole)
  subst hsame
  obtain ⟨behind, rfl⟩ := hbegin
  rw [List.prefix_append_right_inj] at hfirstWhole hsecondWhole
  rw [row.token.isSelfDelimiting_remainder hliteral hrest hrest' hfirstWhole hsecondWhole]

/-- A prefix code spells no symbol without bits. -/
theorem IsPrefixCode.takesBits_grammar (h : book.IsPrefixCode) (literal : Grammar S) :
    (book.grammar literal).TakesBits := by
  intro bits symbol hspelled hnil
  obtain ⟨row, hrow, rest, _, rfl⟩ := h.grammar_iff.mp hspelled
  have hpath := (List.append_eq_nil_iff.mp hnil).1
  rw [Codeword.path_eq_nil_iff] at hpath
  exact (h.fits row hrow).length_pos.ne' hpath

/-- What a codebook writes for a symbol spells it. -/
theorem grammar_of_encodeSymbol {write : LiteralWriter S} {symbol : S}
    (hwrite : ∀ bits, write symbol = .ok bits → literal bits symbol) {piece : EncodedSymbol}
    (hpiece : book.encodeSymbol write symbol = .ok piece) :
    book.grammar literal piece.bits symbol := by
  rcases encodeSymbol_cases hpiece with ⟨codeword, hcodeword, rfl⟩ |
    ⟨escape, bits, _, hescape, hbits, rfl⟩
  · exact Or.inl ⟨codeword, hcodeword, rfl⟩
  · exact Or.inr ⟨escape, bits, hescape, hwrite bits hbits, rfl⟩

end Codebook

/-! ### Decoders -/

/-- What begins a window and is no longer than the bits begins the bits. -/
theorem Bits.prefix_of_prefix_fit {start bits : Bits} {width : ℕ} (h : start <+: fit width bits)
    (hlength : start.length ≤ bits.length) : start <+: bits := by
  have hwidth : start.length ≤ width := by
    have hle := h.length_le
    rwa [length_fit] at hle
  have htake : bits.take width <+: fit width bits := List.prefix_append _ _
  refine (List.prefix_of_prefix_length_le h htake ?_).trans (List.take_prefix _ _)
  rw [List.length_take]
  exact Nat.le_min.mpr ⟨hwidth, hlength⟩

namespace WindowDecoder

variable {decoder : WindowDecoder S}

/-- A slot that is taken belongs to a row whose codeword begins the window. -/
theorem Serves.exists_row {rows : List (CodeRow S)} (h : decoder.Serves rows) {window : ℕ}
    (hwindow : window < 2 ^ decoder.table.width.toNat)
    (htaken : (decoder.table.lookup window).isTaken = true) :
    ∃ row ∈ rows, WindowTable.Begins decoder.table.width.toNat row.codeword window ∧
      (decoder.table.lookup window).length = row.codeword.length ∧
      decoder.tokens[(decoder.table.lookup window).token.toNat]? = some row.token := by
  by_cases hnone : ∀ codeword ∈ rows.map (·.codeword),
      ¬ WindowTable.Begins decoder.table.width.toNat codeword window
  · have hvacant : decoder.table.lookup window = .vacant := h.holds.vacant window hwindow hnone
    rw [hvacant] at htaken
    cases htaken
  · push Not at hnone
    obtain ⟨codeword, hcodeword, hbegins⟩ := hnone
    obtain ⟨row, hrow, rfl⟩ := List.mem_map.mp hcodeword
    obtain ⟨place, hplace⟩ := List.mem_iff_getElem?.mp hrow
    have hslot := h.lookup_eq hplace hwindow hbegins
    exact ⟨row, hrow, hbegins, by rw [hslot], by rw [hslot, h.names hplace]⟩

/-- A token is read where its codeword stands. The zeros that a window shows behind the end do not
matter, since a codeword that goes on there is refused. -/
theorem Serves.obeys_readToken {rows : List (CodeRow S)} (h : decoder.Serves rows) :
    Reading.Obeys decoder.readToken fun bits token ↦
      ∃ row ∈ rows, row.token = token ∧ bits = row.codeword.path := by
  intro cursor left token hrun
  rw [run_readToken] at hrun
  by_cases htaken : (decoder.slotAt cursor).isTaken = false
  · rw [if_pos htaken] at hrun
    cases hrun
  · rw [if_neg htaken] at hrun
    rw [Bool.not_eq_false] at htaken
    by_cases hpast : cursor.remaining < (decoder.slotAt cursor).length.toNat
    · rw [if_pos hpast] at hrun
      cases hrun
    · obtain ⟨row, hrow, hbegins, hlength, htoken⟩ :=
        h.exists_row (Bits.toNat_fit_lt _ _) htaken
      have hslot : (decoder.slotAt cursor).length.toNat = row.codeword.path.length := by
        rw [Codeword.length_path, ← hlength]
        rfl
      have hname : decoder.tokens[(decoder.slotAt cursor).token.toNat]? = some row.token := htoken
      rw [if_neg hpast, hname, hslot] at hrun
      cases hrun
      have hpath : row.codeword.path <+: cursor.upcoming := by
        rw [WindowTable.Begins, Bits.ofNat_toNat_fit] at hbegins
        refine Bits.prefix_of_prefix_fit hbegins ?_
        rw [← cursor.remaining_eq, ← hslot]
        exact Nat.le_of_not_lt hpast
      obtain ⟨rest, hrest⟩ := hpath
      exact ⟨row.codeword.path, rest, hrest.symm, ⟨row, hrow, rfl, rfl⟩, rfl⟩

section Symbols

variable [Symbol S] {book : Codebook S} {read : Reading S} {literal : Grammar S}

/-- A decoder reads nothing but what the codebook spells, if its reader of literals does. -/
theorem Serves.obeys_readSymbol (h : decoder.Serves book.rows) (hbook : book.IsPrefixCode)
    (hread : read.Obeys literal) : (decoder.readSymbol read).Obeys (book.grammar literal) := by
  refine h.obeys_readToken.bind ?_
  intro piece token hpiece
  obtain ⟨row, hrow, rfl, rfl⟩ := hpiece
  have hspelled (more : Bits) (symbol : S) (hmore : row.token.remainder literal more symbol) :
      book.grammar literal (row.codeword.path ++ more) symbol :=
    hbook.grammar_iff.mpr ⟨row, hrow, more, hmore, rfl⟩
  cases htoken : row.token with
  | escape => exact hread.mono fun more symbol hmore ↦ hspelled more symbol (htoken ▸ hmore)
  | symbol symbol => exact Reading.obeys_pure (hspelled [] symbol (htoken ▸ ⟨rfl, rfl⟩))

/-- A decoder accepts what the codebook spells, if its reader of literals accepts the literals. -/
theorem Serves.accepts_readSymbol (h : decoder.Serves book.rows) (hbook : book.IsPrefixCode)
    (hread : read.Accepts literal) : (decoder.readSymbol read).Accepts (book.grammar literal) where
  gives := by
    intro bits symbol hspelled
    rcases hspelled with ⟨codeword, hcodeword, rfl⟩ | ⟨escape, rest, hescape, hrest, rfl⟩
    · exact h.gives_codeword hbook.ofSorted_eq hcodeword
    · exact h.gives_literal hbook.ofSorted_eq hescape (hread.gives hrest)
  obeys := h.obeys_readSymbol hbook hread.obeys

end Symbols

end WindowDecoder

end HuffmanCoding
