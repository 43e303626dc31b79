import HuffmanCoding.Bits.Number
import HuffmanCoding.Proofs.Bits
import Mathlib.Data.List.Forall2

/-!
# Grammars of bits

A grammar says which bits spell which values. It is self-delimiting if no spelling begins a
different one, so that the end of a spelling shows without a look at what follows it. Then the
spellings of a sequence can be told apart, too: of two sequences that begin the same bits the one
with fewer items begins the other one (`IsSelfDelimiting.prefix_of_le`).

The numbers of variable size are such a grammar. `Numeral` has all their spellings, also those with
more groups than needed, and neither the groups nor the value is shared by two of them where one
begins the other (`Numeral.eq_of_prefix`). So a list behind the number of its items is
self-delimiting if the items are (`IsSelfDelimiting.counted`).
-/

set_option autoImplicit false
set_option relaxedAutoImplicit false

namespace HuffmanCoding

/-- Which bits spell which values. -/
abbrev Grammar (α : Type) := Bits → α → Prop

namespace Grammar

variable {α : Type} {grammar : Grammar α}

/-- The items of a list are spelled one after the other. -/
def sequence (item : Grammar α) : Grammar (List α) := fun bits values ↦
  ∃ pieces, List.Forall₂ item pieces values ∧ bits = pieces.flatten

/-- Of two spellings that begin the same bits, none goes on behind the other. -/
def IsSelfDelimiting (grammar : Grammar α) : Prop :=
  ∀ ⦃first second whole : Bits⦄ ⦃value other : α⦄, grammar first value → grammar second other →
    first <+: whole → second <+: whole → first = second

/-- Every spelling has a bit or more. -/
def TakesBits (grammar : Grammar α) : Prop :=
  ∀ ⦃bits : Bits⦄ ⦃value : α⦄, grammar bits value → bits ≠ []

/-! ### Sequences -/

/-- Two bit sequences of one length that begin the same bits are the same. -/
theorem eq_of_prefix_of_length_eq {first second whole : Bits} (hfirst : first <+: whole)
    (hsecond : second <+: whole) (hlength : first.length = second.length) : first = second :=
  (List.prefix_of_prefix_length_le hfirst hsecond hlength.le).eq_of_length hlength

/-- Spellings that are all of one length show where they end. -/
theorem isSelfDelimiting_of_length {width : ℕ}
    (h : ∀ bits value, grammar bits value → bits.length = width) : grammar.IsSelfDelimiting := by
  intro first second whole value other hfirst hsecond hfirstWhole hsecondWhole
  refine eq_of_prefix_of_length_eq hfirstWhole hsecondWhole ?_
  rw [h first value hfirst, h second other hsecond]

/-- Of two sequences of spellings that begin the same bits, the one with fewer spellings begins the
other one. -/
theorem IsSelfDelimiting.prefix_of_le (h : grammar.IsSelfDelimiting) {first second : List Bits}
    {values others : List α} (hfirst : List.Forall₂ grammar first values)
    (hsecond : List.Forall₂ grammar second others) {whole : Bits}
    (hfirstWhole : first.flatten <+: whole) (hsecondWhole : second.flatten <+: whole)
    (hle : first.length ≤ second.length) : first <+: second := by
  induction hfirst generalizing second others whole with
  | nil => exact List.nil_prefix
  | @cons piece value first values hpiece _ ih =>
    cases hsecond with
    | nil => exact absurd hle (Nat.not_succ_le_zero _)
    | @cons another other second others hanother hsecond =>
      rw [List.flatten_cons] at hfirstWhole hsecondWhole
      have hsame : piece = another := h hpiece hanother
        ((List.prefix_append _ _).trans hfirstWhole) ((List.prefix_append _ _).trans hsecondWhole)
      subst hsame
      obtain ⟨rest, rfl⟩ := (List.prefix_append piece first.flatten).trans hfirstWhole
      rw [List.prefix_append_right_inj] at hfirstWhole hsecondWhole
      have hrest := ih hsecond hfirstWhole hsecondWhole (Nat.le_of_succ_le_succ hle)
      exact (List.prefix_append_right_inj [piece]).mpr hrest

/-- Two sequences of as many spellings that begin the same bits are the same. -/
theorem IsSelfDelimiting.eq_of_length_eq (h : grammar.IsSelfDelimiting) {first second : List Bits}
    {values others : List α} (hfirst : List.Forall₂ grammar first values)
    (hsecond : List.Forall₂ grammar second others) {whole : Bits}
    (hfirstWhole : first.flatten <+: whole) (hsecondWhole : second.flatten <+: whole)
    (hlength : first.length = second.length) : first = second :=
  (h.prefix_of_le hfirst hsecond hfirstWhole hsecondWhole hlength.le).eq_of_length hlength

theorem TakesBits.ne_nil (h : grammar.TakesBits) {pieces : List Bits} {values : List α}
    (hpieces : List.Forall₂ grammar pieces values) : ∀ piece ∈ pieces, piece ≠ [] := by
  induction hpieces with
  | nil => exact List.forall_mem_nil _
  | cons hpiece _ ih => exact List.forall_mem_cons.mpr ⟨h hpiece, ih⟩

/-- Sequences of spellings with the same bits have as many spellings, since none of them is without
bits. -/
theorem IsSelfDelimiting.length_eq (h : grammar.IsSelfDelimiting) (hbits : grammar.TakesBits)
    {first second : List Bits} {values others : List α}
    (hfirst : List.Forall₂ grammar first values) (hsecond : List.Forall₂ grammar second others)
    (hsame : first.flatten = second.flatten) : first.length = second.length := by
  wlog hle : first.length ≤ second.length generalizing first second values others
  · exact (this hsecond hfirst hsame.symm (Nat.le_of_not_le hle)).symm
  obtain ⟨more, rfl⟩ := h.prefix_of_le hfirst hsecond List.prefix_rfl (hsame ▸ List.prefix_rfl) hle
  have hmore : more.flatten = [] := by
    rwa [List.flatten_append, List.self_eq_append_right] at hsame
  have hnone : more = [] := by
    rw [List.eq_nil_iff_forall_not_mem]
    intro piece hpiece
    have hpieces := hbits.ne_nil hsecond piece (List.mem_append_right _ hpiece)
    exact hpieces (List.flatten_eq_nil_iff.mp hmore piece hpiece)
  rw [hnone, List.append_nil]

end Grammar

/-! ### Numbers of variable size -/

/-- The spellings of numbers: groups of seven digits, the low group first, each but the last with a
mark that another group follows. There are at most `allowed` groups. -/
inductive Numeral : (allowed : ℕ) → Bits → ℕ → Prop where
  | last {allowed digits : ℕ} (h : digits < 128) :
    Numeral (allowed + 1) (Bits.ofNat 8 digits) digits
  | more {allowed digits value : ℕ} {bits : Bits} (h : digits < 128)
    (rest : Numeral allowed bits value) :
    Numeral (allowed + 1) (Bits.ofNat 8 (digits + 128) ++ bits) (digits + 128 * value)

namespace Numeral

/-- A number has at least one group. -/
theorem eight_le_length {allowed value : ℕ} {bits : Bits} (h : Numeral allowed bits value) :
    8 ≤ bits.length := by
  cases h with
  | last => rw [Bits.length_ofNat]
  | more =>
    rw [List.length_append, Bits.length_ofNat]
    exact Nat.le_add_right _ _

/-- Groups that begin the same bits are the same. -/
theorem group_eq {first second : ℕ} (hfirst : first < 2 ^ 8) (hsecond : second < 2 ^ 8)
    {whole : Bits} (hfirstWhole : Bits.ofNat 8 first <+: whole)
    (hsecondWhole : Bits.ofNat 8 second <+: whole) : first = second := by
  rw [← Bits.ofNat_inj hfirst hsecond]
  refine Grammar.eq_of_prefix_of_length_eq hfirstWhole hsecondWhole ?_
  rw [Bits.length_ofNat, Bits.length_ofNat]

/-- Spellings of numbers that begin the same bits are the same, and so are the numbers. -/
theorem eq_of_prefix {allowed others value other : ℕ} {first second whole : Bits}
    (hfirst : Numeral allowed first value) (hsecond : Numeral others second other)
    (hfirstWhole : first <+: whole) (hsecondWhole : second <+: whole) :
    first = second ∧ value = other := by
  induction hfirst generalizing others second other whole with
  | @last _ value h =>
    cases hsecond with
    | last h' =>
      have hdigits : value = other := group_eq (by omega) (by omega) hfirstWhole hsecondWhole
      exact ⟨by rw [hdigits], hdigits⟩
    | @more _ digits _ _ h' _ =>
      have hdigits : value = digits + 128 := group_eq (by omega) (by omega) hfirstWhole
        ((List.prefix_append _ _).trans hsecondWhole)
      omega
  | @more _ digits value bits h _ ih =>
    have hgroup := (List.prefix_append (Bits.ofNat 8 (digits + 128)) bits).trans hfirstWhole
    cases hsecond with
    | last h' =>
      have hdigits : digits + 128 = other := group_eq (by omega) (by omega) hgroup hsecondWhole
      omega
    | @more _ digits' value' bits' h' hrest =>
      have hdigits : digits + 128 = digits' + 128 := group_eq (by omega) (by omega) hgroup
        ((List.prefix_append _ _).trans hsecondWhole)
      rw [Nat.add_right_cancel_iff] at hdigits
      subst hdigits
      obtain ⟨behind, rfl⟩ := hgroup
      rw [List.prefix_append_right_inj] at hfirstWhole hsecondWhole
      obtain ⟨hbits, hvalue⟩ := ih hrest hfirstWhole hsecondWhole
      exact ⟨by rw [hbits], by rw [hvalue]⟩

/-- The spelling that a writer chooses has as many groups as the number needs. -/
theorem ofNumber {allowed value : ℕ} (h : value < 128 ^ (allowed + 1)) :
    Numeral (allowed + 1) (Bits.ofNumber value) value := by
  induction allowed generalizing value with
  | zero =>
    rw [Nat.zero_add, Nat.pow_one] at h
    rw [Bits.ofNumber, if_pos h]
    exact .last h
  | succ allowed ih =>
    rw [Bits.ofNumber]
    by_cases hlast : value < 128
    · rw [if_pos hlast]
      exact .last hlast
    · rw [if_neg hlast]
      have hless : value / 128 < 128 ^ (allowed + 1) :=
        Nat.div_lt_of_lt_mul (by rwa [← Nat.pow_succ'])
      have hmore := Numeral.more (Nat.mod_lt value (by decide : 0 < 128)) (ih hless)
      rwa [Nat.mod_add_div] at hmore

/-- A writer spells every number, however great. -/
theorem exists_ofNumber (value : ℕ) : ∃ allowed, Numeral allowed (Bits.ofNumber value) value := by
  refine ⟨value + 1, ofNumber ?_⟩
  calc value < 128 ^ value := Nat.lt_pow_self (by decide)
    _ ≤ 128 ^ (value + 1) := Nat.pow_le_pow_right (by decide) (Nat.le_succ value)

end Numeral

namespace Grammar

variable {α : Type} {item : Grammar α}

/-- The numbers that a reader takes: at most ten groups for at most 64 digits. -/
def number : Grammar ℕ := fun bits value ↦
  Numeral 10 bits value ∧ value < UInt64.size

/-- The spelling that a writer chooses is one of those that a reader takes. -/
theorem number_ofNumber {value : ℕ} (h : value < UInt64.size) :
    number (Bits.ofNumber value) value :=
  ⟨Numeral.ofNumber (h.trans (by decide)), h⟩

/-- A list is spelled by the number of its items, in any of the spellings of the number, and the
items. -/
def counted (item : Grammar α) : Grammar (List α) := fun bits values ↦
  ∃ allowed count pieces, Numeral allowed count values.length ∧
    List.Forall₂ item pieces values ∧ bits = count ++ pieces.flatten

/-- What a writer puts behind the number of the items spells the list. -/
theorem counted_ofNumber {pieces : List Bits} {values : List α}
    (h : List.Forall₂ item pieces values) :
    item.counted (Bits.ofNumber values.length ++ pieces.flatten) values := by
  obtain ⟨allowed, hcount⟩ := Numeral.exists_ofNumber values.length
  exact ⟨allowed, _, pieces, hcount, h, rfl⟩

/-- A list behind the number of its items is self-delimiting if the items are. -/
theorem IsSelfDelimiting.counted (h : item.IsSelfDelimiting) :
    item.counted.IsSelfDelimiting := by
  intro first second whole values others hfirst hsecond hfirstWhole hsecondWhole
  obtain ⟨_, count, pieces, hcount, hpieces, rfl⟩ := hfirst
  obtain ⟨_, count', pieces', hcount', hpieces', rfl⟩ := hsecond
  have hbegin := (List.prefix_append count pieces.flatten).trans hfirstWhole
  obtain ⟨rfl, hlength⟩ := hcount.eq_of_prefix hcount' hbegin
    ((List.prefix_append _ _).trans hsecondWhole)
  obtain ⟨behind, rfl⟩ := hbegin
  rw [List.prefix_append_right_inj] at hfirstWhole hsecondWhole
  rw [← hpieces.length_eq, ← hpieces'.length_eq] at hlength
  rw [h.eq_of_length_eq hpieces hpieces' hfirstWhole hsecondWhole hlength]

/-- A list behind the number of its items has a bit or more. -/
theorem takesBits_counted (item : Grammar α) : item.counted.TakesBits := by
  intro bits values h hnil
  obtain ⟨_, count, pieces, hcount, _, rfl⟩ := h
  have hlength := hcount.eight_le_length
  rw [(List.append_eq_nil_iff.mp hnil).1] at hlength
  exact absurd hlength (by decide)

end Grammar

end HuffmanCoding
