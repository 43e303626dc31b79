import HuffmanCoding.Symbol
import HuffmanCoding.Text.Hexadecimal
import HuffmanCoding.Text.Quoted
import Mathlib.Data.List.Basic
import Mathlib.Logic.Function.Basic

/-!
# A symbol is known by its quotation

Between quotes each character has one of three forms: its own, a short escape, or its number between
braces (`IsSpelled`). Where two characters in such forms begin the same text, they are the same
(`IsSpelled.unique`), and none of them begins with the quote that ends the text. So a quotation is
that of one character (`char_injective`) or of one text (`text_injective`), and a message that
quotes a symbol names it.
-/

set_option autoImplicit false
set_option relaxedAutoImplicit false

namespace HuffmanCoding.Quoted

/-! ### Hexadecimal numbers -/

/-- The number that hexadecimal digits spell, the highest of them first. -/
def numberOf (digits : List Char) : ℕ :=
  digits.foldl (fun high digit ↦ high * 16 + (Hexadecimal.value? digit).getD 0) 0

theorem numberOf_toDigits (value : ℕ) : numberOf (Nat.toDigits 16 value) = value := by
  have hdigit : ∀ low < 16, (Hexadecimal.value? (Nat.digitChar low)).getD 0 = low := by decide
  induction value using Nat.strongRecOn with
  | ind value ih =>
    rw [Nat.toDigits_eq_if (by decide)]
    split_ifs with hsmall
    · rw [numberOf, List.foldl_cons, List.foldl_nil, hdigit value hsmall, Nat.zero_mul,
        Nat.zero_add]
    · have hhigh : numberOf (Nat.toDigits 16 (value / 16)) = value / 16 := ih _ (by omega)
      rw [numberOf, List.foldl_append, ← numberOf, hhigh, List.foldl_cons, List.foldl_nil,
        hdigit _ (Nat.mod_lt _ (by decide))]
      exact Nat.div_add_mod' value 16

theorem brace_notMem_toDigits (value : ℕ) : '\x7d' ∉ Nat.toDigits 16 value := by
  have hdigit : ∀ low < 16, '\x7d' ∉ [Nat.digitChar low] := by decide
  induction value using Nat.strongRecOn with
  | ind value ih =>
    rw [Nat.toDigits_eq_if (by decide)]
    split_ifs with hsmall
    · exact hdigit value hsmall
    · rw [List.mem_append, not_or]
      exact ⟨ih _ (by omega), hdigit _ (Nat.mod_lt _ (by decide))⟩

/-- A number ends at the first brace, whatever follows. -/
theorem append_brace_inj {first second : ℕ} {rest rest' : List Char}
    (h : Nat.toDigits 16 first ++ '\x7d' :: rest = Nat.toDigits 16 second ++ '\x7d' :: rest') :
    Nat.toDigits 16 first = Nat.toDigits 16 second ∧ rest = rest' := by
  have hfirst := brace_notMem_toDigits first
  have hsecond := brace_notMem_toDigits second
  rcases List.append_eq_append_iff.mp h with ⟨more, hdigits, hmore⟩ | ⟨more, hdigits, hmore⟩ <;>
    cases more <;> simp_all

/-! ### Forms of a character -/

/-- The character that a short escape with a mark stands for. -/
def shortened (mark : Char) : Char :=
  if mark = 't' then '\t'
  else if mark = 'r' then '\r'
  else if mark = 'n' then '\n'
  else if mark = '0' then '\x00'
  else mark

/-- The forms in which a character stands between quotes. -/
inductive IsSpelled (quote : Char) : Char → List Char → Prop where
  | plain (character : Char) (hquote : character ≠ quote) (hmark : character ≠ '\\') :
      IsSpelled quote character [character]
  | short (mark : Char) (hnumber : mark ≠ 'u') : IsSpelled quote (shortened mark) ['\\', mark]
  | number (character : Char) : IsSpelled quote character
      ('\\' :: 'u' :: '\x7b' :: (Nat.toDigits 16 character.toNat ++ ['\x7d']))

/-- Characters are written in one of the forms, between single and between double quotes. -/
theorem isSpelled_escaped {quote : Char} (h : quote = '\'' ∨ quote = '"') (character : Char) :
    IsSpelled quote character (escaped quote character).toList := by
  unfold escaped
  split_ifs with hquoted htab hreturn hline hzero
  · rw [Bool.or_eq_true, decide_eq_true_eq, decide_eq_true_eq] at hquoted
    have hmark : shortened character = character ∧ character ≠ 'u' := by
      rcases hquoted with rfl | rfl
      · rcases h with rfl | rfl <;> decide
      · decide
    have hshort : IsSpelled quote _ _ := .short character hmark.2
    rwa [hmark.1, ← String.toList_ofList (l := ['\\', character])] at hshort
  · exact htab ▸ .short 't' (by decide)
  · exact hreturn ▸ .short 'r' (by decide)
  · exact hline ▸ .short 'n' (by decide)
  · have hnull : character = '\x00' := Char.toNat_inj.mp hzero
    exact hnull ▸ .short '0' (by decide)
  · have hform : (s!"\\u\x7b{hexadecimal character.toNat}\x7d").toList =
        '\\' :: 'u' :: '\x7b' :: (Nat.toDigits 16 character.toNat ++ ['\x7d']) := by
      simp [hexadecimal, toString]
    rw [hform]
    exact .number character
  · rw [Bool.or_eq_true, decide_eq_true_eq, decide_eq_true_eq, not_or] at hquoted
    have hplain := IsSpelled.plain character hquoted.1 hquoted.2
    simpa using hplain

namespace IsSpelled

variable {quote character other : Char} {form form' rest rest' : List Char}

/-- The quote does not begin any form. -/
theorem append_ne_quote (h : IsSpelled quote character form) (hquote : quote ≠ '\\') :
    form ++ rest ≠ quote :: rest' := by
  intro heq
  cases h with
  | plain _ hplain _ => exact hplain (List.cons.inj heq).1
  | short mark _ => exact hquote (List.cons.inj heq).1.symm
  | number => exact hquote (List.cons.inj heq).1.symm

/-- Where two forms begin the same text, the characters are the same and the same text is left. -/
theorem unique (h : IsSpelled quote character form) (h' : IsSpelled quote other form')
    (heq : form ++ rest = form' ++ rest') : character = other ∧ rest = rest' := by
  cases h with
  | plain _ _ hmark =>
    cases h' with
    | plain => exact List.cons.inj heq
    | short => exact absurd (List.cons.inj heq).1 hmark
    | number => exact absurd (List.cons.inj heq).1 hmark
  | short mark hnumber =>
    cases h' with
    | plain _ _ hmark => exact absurd (List.cons.inj heq).1.symm hmark
    | short other' _ =>
      obtain ⟨rfl, hrest⟩ := List.cons.inj (List.cons.inj heq).2
      exact ⟨rfl, hrest⟩
    | number => exact absurd (List.cons.inj (List.cons.inj heq).2).1 hnumber
  | number =>
    cases h' with
    | plain _ _ hmark => exact absurd (List.cons.inj heq).1.symm hmark
    | short _ hnumber => exact absurd (List.cons.inj (List.cons.inj heq).2).1.symm hnumber
    | number =>
      simp only [List.cons_append, List.cons.injEq, true_and, List.append_assoc,
        List.nil_append] at heq
      obtain ⟨hsame, hrest⟩ := append_brace_inj heq
      have hvalue := congrArg numberOf hsame
      rw [numberOf_toDigits, numberOf_toDigits] at hvalue
      exact ⟨Char.toNat_inj.mp hvalue, hrest⟩

end IsSpelled

/-! ### Quotations -/

/-- Characters in front of the quote that ends them are known. -/
theorem flatMap_escaped_inj {quote : Char} (h : quote = '\'' ∨ quote = '"')
    {letters others : List Char}
    (heq : letters.flatMap (fun letter ↦ (escaped quote letter).toList) ++ [quote] =
      others.flatMap (fun letter ↦ (escaped quote letter).toList) ++ [quote]) :
    letters = others := by
  have hquote : quote ≠ '\\' := by rcases h with rfl | rfl <;> decide
  induction letters generalizing others with
  | nil =>
    cases others with
    | nil => rfl
    | cons other others =>
      rw [List.flatMap_cons, List.append_assoc] at heq
      exact absurd heq.symm ((isSpelled_escaped h other).append_ne_quote hquote)
  | cons letter letters ih =>
    rw [List.flatMap_cons, List.append_assoc] at heq
    cases others with
    | nil => exact absurd heq ((isSpelled_escaped h letter).append_ne_quote hquote)
    | cons other others =>
      rw [List.flatMap_cons, List.append_assoc] at heq
      obtain ⟨rfl, hrest⟩ := (isSpelled_escaped h letter).unique (isSpelled_escaped h other) heq
      rw [ih hrest]

theorem toList_char (letter : Char) :
    (char letter).toList = '\'' :: ((escaped '\'' letter).toList ++ ['\'']) := by
  simp [char]

theorem toList_text (content : String) : (text content).toList =
    '"' :: (content.toList.flatMap (fun letter ↦ (escaped '"' letter).toList) ++ ['"']) := by
  simp [text, String.toList_join, List.flatMap_map]

theorem char_injective : Function.Injective char := by
  intro first second h
  have hlists := congrArg String.toList h
  rw [toList_char, toList_char] at hlists
  exact ((isSpelled_escaped (.inl rfl) first).unique (isSpelled_escaped (.inl rfl) second)
    (List.cons.inj hlists).2).1

theorem text_injective : Function.Injective text := by
  intro first second h
  have hlists := congrArg String.toList h
  rw [toList_text, toList_text] at hlists
  exact String.toList_inj.mp (flatMap_escaped_inj (.inr rfl) (List.cons.inj hlists).2)

end HuffmanCoding.Quoted
