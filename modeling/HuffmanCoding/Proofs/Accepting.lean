import HuffmanCoding.Proofs.Literals

/-!
# Readers that follow a grammar

A reader obeys a grammar if whatever it yields is spelled by the bits that it passes
(`Reading.Obeys`), and it accepts the grammar if moreover it gives back all that is spelled
(`Reading.Accepts`). What a field obeys follows from what its reader does with a cursor
(`obeys_bits`, `obeys_bytes`); from there the statement is carried over numbers (`obeys_number`) and
sequences of items (`obeys_items`) to the literals of characters and texts (`accepts_character`,
`accepts_text`).
-/

set_option autoImplicit false
set_option relaxedAutoImplicit false

namespace HuffmanCoding

namespace Reading

variable {α β : Type} {grammar : Grammar α}

/-- Whatever the reader yields is spelled by the bits that it passes. -/
def Obeys (read : Reading α) (grammar : Grammar α) : Prop :=
  ∀ ⦃cursor left : BitCursor⦄ ⦃value : α⦄, read.run cursor = .ok value left →
    ∃ piece rest, cursor.upcoming = piece ++ rest ∧ grammar piece value ∧
      left = cursor.drop piece.length

/-- The reader gives back all that is spelled, and nothing else. -/
structure Accepts (read : Reading α) (grammar : Grammar α) : Prop where
  gives : ∀ ⦃bits : Bits⦄ ⦃value : α⦄, grammar bits value → read.Gives bits value
  obeys : read.Obeys grammar

/-! ### Composition -/

theorem Obeys.mono {read : Reading α} {other : Grammar α} (h : read.Obeys grammar)
    (hle : ∀ bits value, grammar bits value → other bits value) : read.Obeys other := by
  intro cursor left value hrun
  obtain ⟨piece, rest, hcursor, hpiece, hleft⟩ := h hrun
  exact ⟨piece, rest, hcursor, hle piece value hpiece, hleft⟩

theorem obeys_pure {value : α} (h : grammar [] value) : (pure value : Reading α).Obeys grammar := by
  intro cursor left result hrun
  rw [EStateM.run_pure] at hrun
  cases hrun
  exact ⟨[], cursor.upcoming, rfl, h, (BitCursor.drop_zero cursor).symm⟩

theorem obeys_fail (fault : StreamFault) (offset : ℕ) :
    (fail fault offset : Reading α).Obeys grammar := by
  intro cursor left result hrun
  cases hrun

/-- Behind what the first reader passed, the second one obeys what is left of the grammar. -/
theorem Obeys.bind {first : Reading α} {next : α → Reading β} {target : Grammar β}
    (hfirst : first.Obeys grammar)
    (hnext : ∀ piece value, grammar piece value →
      (next value).Obeys fun more result ↦ target (piece ++ more) result) :
    (first >>= next).Obeys target := by
  intro cursor left result hrun
  rw [EStateM.run_bind] at hrun
  cases hvalue : first.run cursor with
  | error error middle =>
    rw [hvalue] at hrun
    cases hrun
  | ok value middle =>
    rw [hvalue] at hrun
    obtain ⟨piece, rest, hcursor, hpiece, rfl⟩ := hfirst hvalue
    obtain ⟨more, behind, hmiddle, hmore, rfl⟩ := hnext piece value hpiece hrun
    rw [BitCursor.upcoming_drop hcursor] at hmiddle
    subst hmiddle
    refine ⟨piece ++ more, behind, ?_, hmore, ?_⟩
    · rw [hcursor, List.append_assoc]
    · rw [BitCursor.drop_drop, List.length_append]

theorem obeys_of_position {next : ℕ → Reading α} (h : ∀ start, (next start).Obeys grammar) :
    (position >>= next).Obeys grammar :=
  fun cursor _ _ hrun ↦ h cursor.position hrun

theorem obeys_of_remaining {next : ℕ → Reading α} (h : ∀ left, (next left).Obeys grammar) :
    (remaining >>= next).Obeys grammar :=
  fun cursor _ _ hrun ↦ h cursor.remaining hrun

/-! ### Fields of fixed width -/

/-- The bits that are next, if there are as many. -/
theorem exists_piece {cursor : BitCursor} {width : ℕ} (h : ¬ cursor.remaining < width) :
    ∃ piece rest, cursor.upcoming = piece ++ rest ∧ piece.length = width := by
  refine ⟨cursor.upcoming.take width, cursor.upcoming.drop width,
    (List.take_append_drop _ _).symm, ?_⟩
  rw [List.length_take, ← cursor.remaining_eq]
  exact Nat.min_eq_left (Nat.le_of_not_lt h)

/-- A field holds the number that its bits spell. -/
theorem obeys_bits (width : ℕ) : Obeys (bits width) fun piece value ↦
    piece = Bits.ofNat width value ∧ value < 2 ^ width := by
  intro cursor left value hrun
  rw [run_bits] at hrun
  by_cases hshort : cursor.remaining < width
  · rw [if_pos hshort] at hrun
    cases hrun
  · rw [if_neg hshort] at hrun
    cases hrun
    obtain ⟨piece, rest, hcursor, rfl⟩ := exists_piece hshort
    refine ⟨piece, rest, hcursor, ?_, rfl⟩
    rw [BitCursor.peek, hcursor, Bits.fit_append rfl]
    exact ⟨(Bits.ofNat_toNat piece).symm, Bits.toNat_lt piece⟩

theorem obeys_eachByte (size : ℕ) : Obeys (eachByte size) fun piece data ↦
    piece = Bits.ofBytes data ∧ data.length = size := by
  induction size with
  | zero => exact obeys_pure ⟨rfl, rfl⟩
  | succ size ih =>
    refine (obeys_bits 8).bind fun piece byte hpiece ↦ ih.bind fun more data hmore ↦ ?_
    obtain ⟨rfl, _⟩ := hpiece
    obtain ⟨rfl, rfl⟩ := hmore
    apply obeys_pure
    rw [List.append_nil, ← Bits.ofByte_ofNat]
    exact ⟨rfl, rfl⟩

/-- Bytes are spelled by their bits. -/
theorem obeys_bytes (size : ℕ) : Obeys (bytes size) fun piece data ↦
    piece = Bits.ofBytes data ∧ data.length = size := by
  refine obeys_of_position fun start ↦ obeys_of_remaining fun left ↦ ?_
  by_cases hshort : left < size * 8
  · rw [if_pos hshort]
    exact obeys_fail _ _
  · rw [if_neg hshort]
    exact obeys_eachByte size

/-! ### Numbers of variable size -/

/-- The groups of a number are read by their grammar behind groups with the value `low`. -/
theorem obeys_numberFrom (start allowed digits low : ℕ) :
    Obeys (numberFrom start allowed digits low) fun bits result ↦
      ∃ value, Numeral allowed bits value ∧ result = low + value <<< digits ∧
        result < UInt64.size := by
  induction allowed generalizing digits low with
  | zero => exact (obeys_bits 8).bind fun _ _ _ ↦ obeys_fail _ _
  | succ allowed ih =>
    refine (obeys_bits 8).bind ?_
    intro piece group hpiece
    obtain ⟨rfl, hgroup⟩ := hpiece
    dsimp only
    by_cases hlarge : UInt64.size ≤ low + (group % 128) <<< digits
    · rw [if_pos hlarge]
      exact obeys_fail _ _
    · rw [if_neg hlarge]
      by_cases hlast : group < 128
      · rw [if_pos hlast]
        apply obeys_pure
        rw [Nat.mod_eq_of_lt hlast] at hlarge ⊢
        exact ⟨group, by rw [List.append_nil]; exact .last hlast, rfl, Nat.lt_of_not_le hlarge⟩
      · rw [if_neg hlast]
        refine (ih (digits + 7) _).mono ?_
        intro bits result h
        obtain ⟨value, hvalue, rfl, hsize⟩ := h
        have hsplit : group % 128 + 128 = group := by omega
        refine ⟨group % 128 + 128 * value, ?_, ?_, hsize⟩
        · have hmore := Numeral.more (Nat.mod_lt group (by decide : 0 < 128)) hvalue
          rwa [hsplit] at hmore
        · simp only [Nat.shiftLeft_eq, pow_add]
          ring

theorem obeys_number : Obeys number Grammar.number := by
  refine obeys_of_position fun start ↦ (obeys_numberFrom start 10 0 0).mono ?_
  intro bits result h
  obtain ⟨value, hvalue, rfl, hsize⟩ := h
  rw [Nat.zero_add, Nat.shiftLeft_zero] at hsize ⊢
  exact ⟨hvalue, hsize⟩

/-- Behind a count that is checked against the bits that are left, what is left of the grammar is
obeyed. -/
theorem obeys_counted {next : ℕ → Reading α} (fault : ℕ → StreamFault)
    (h : ∀ piece count, Grammar.number piece count →
      (next count).Obeys fun more result ↦ grammar (piece ++ more) result) :
    Obeys (counted fault next) grammar := by
  refine obeys_of_position fun start ↦ obeys_number.bind fun piece count hpiece ↦ ?_
  refine obeys_of_remaining fun left ↦ ?_
  by_cases hshort : left < count
  · rw [if_pos hshort]
    exact obeys_fail _ _
  · rw [if_neg hshort]
    exact h piece count hpiece

/-! ### Items -/

section Items

variable {read : ℕ → Reading α}

theorem obeys_itemsAfter (h : ∀ index, (read index).Obeys grammar) (count : ℕ) (found : List α)
    (index : ℕ) : Obeys (itemsAfter read count found index) fun bits values ↦
      ∃ more, values = found.reverse ++ more ∧ more.length = count ∧
        grammar.sequence bits more := by
  induction count generalizing found index with
  | zero =>
    apply obeys_pure
    exact ⟨[], (List.append_nil _).symm, rfl, [], .nil, rfl⟩
  | succ count ih =>
    refine (h index).bind ?_
    intro piece value hpiece
    refine (ih (value :: found) (index + 1)).mono ?_
    intro bits values hvalues
    obtain ⟨more, rfl, hcount, pieces, hpieces, rfl⟩ := hvalues
    refine ⟨value :: more, ?_, by rw [List.length_cons, hcount], piece :: pieces,
      .cons hpiece hpieces, rfl⟩
    rw [List.reverse_cons, List.append_assoc, List.singleton_append]

/-- A number of items is read by the grammar of each. -/
theorem obeys_items (h : ∀ index, (read index).Obeys grammar) (count : ℕ) :
    Obeys (items count read) fun bits values ↦
      values.length = count ∧ grammar.sequence bits values := by
  refine (obeys_itemsAfter h count [] 0).mono ?_
  intro bits values hvalues
  obtain ⟨more, rfl, hcount, hmore⟩ := hvalues
  exact ⟨hcount, hmore⟩

end Items

end Reading

/-! ### Literals -/

namespace Grammar

/-- A character is spelled by its number, in a field that has room for each of them. -/
def character : Grammar Char := fun bits letter ↦
  bits = Bits.ofNat characterBits letter.toNat

/-- A text is spelled by the number of its bytes, in any of the spellings of the number that a
reader takes, and the bytes. -/
def text : Grammar String := fun bits content ↦
  ∃ size, number size (Utf8.encode content).length ∧
    bits = size ++ Bits.ofBytes (Utf8.encode content)

def byte : Grammar UInt8 := fun bits value ↦
  bits = Bits.ofNat 8 value.toNat

theorem isSelfDelimiting_character : character.IsSelfDelimiting := by
  apply isSelfDelimiting_of_length
  intro bits letter h
  rw [h, Bits.length_ofNat]

theorem isSelfDelimiting_byte : byte.IsSelfDelimiting := by
  apply isSelfDelimiting_of_length
  intro bits value h
  rw [h, Bits.length_ofNat]

/-- Bytes are spelled one after the other. -/
theorem forall₂_byte (data : List UInt8) :
    List.Forall₂ byte (data.map fun value ↦ Bits.ofNat 8 value.toNat) data := by
  rw [List.forall₂_map_left_iff, List.forall₂_same]
  exact fun _ _ ↦ rfl

/-- The literal of a text has its bytes behind their number. -/
theorem counted_byte_of_text {bits : Bits} {content : String} (h : text bits content) :
    byte.counted bits (Utf8.encode content) := by
  obtain ⟨size, ⟨hsize, _⟩, rfl⟩ := h
  exact ⟨10, size, _, hsize, forall₂_byte _, rfl⟩

/-- Also a literal that is too long for a reader has its bytes behind their number. -/
theorem counted_byte_textLiteral (content : String) :
    byte.counted (textLiteral content) (Utf8.encode content) :=
  counted_ofNumber (forall₂_byte _)

end Grammar

namespace Utf8

/-- Bytes that are a text are the bytes of this text. -/
theorem encode_of_decode {data : List UInt8} {content : String} (h : decode data = .ok content) :
    encode content = data := by
  rw [← List.toByteArray_inj, toByteArray_encode]
  unfold decode String.fromUTF8? at h
  by_cases hvalid : data.toByteArray.IsValidUTF8
  · rw [dif_pos hvalid] at h
    cases h
    rfl
  · rw [dif_neg hvalid] at h
    cases h

end Utf8

namespace Reading

theorem accepts_character : Accepts character Grammar.character where
  gives := by
    intro bits letter h
    cases h
    exact gives_character letter
  obeys := by
    refine obeys_of_position fun start ↦ (obeys_bits characterBits).bind ?_
    intro piece value hpiece
    obtain ⟨rfl, _⟩ := hpiece
    by_cases hvalid : value.isValidChar
    · rw [dif_pos hvalid]
      apply obeys_pure
      rw [List.append_nil]
      rfl
    · rw [dif_neg hvalid]
      exact obeys_fail _ _

theorem accepts_text : Accepts text Grammar.text where
  gives := by
    intro bits content h
    obtain ⟨size, hsize, rfl⟩ := h
    refine gives_of_position fun start ↦ (gives_numeral hsize).bind ?_
    refine (gives_bytes (Utf8.encode content)).finish ?_
    simp only [Utf8.decode_encode]
    exact gives_pure content
  obeys := by
    refine obeys_of_position fun start ↦ obeys_number.bind ?_
    intro size count hsize
    refine (obeys_bytes count).bind ?_
    intro piece data hpiece
    obtain ⟨rfl, rfl⟩ := hpiece
    cases hdecode : Utf8.decode data with
    | error fault => exact obeys_fail _ _
    | ok content =>
      apply obeys_pure
      rw [List.append_nil]
      rw [← Utf8.encode_of_decode hdecode] at hsize ⊢
      exact ⟨size, hsize, rfl⟩

end Reading

end HuffmanCoding
