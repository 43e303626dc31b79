/-!
# Sets of characters

A set of characters is given by the ranges of their numbers, in ascending order. A search stops at
the first range that ends behind the character, and `contains_iff` says that no range further on
could hold it.
-/

set_option autoImplicit false
set_option relaxedAutoImplicit false

namespace HuffmanCoding

/-- Tells whether closed ranges are not empty, follow each other without overlap and start at
`start` at the earliest. -/
def CharacterSet.ascendFrom : (start : Nat) → (ranges : List (Nat × Nat)) → Bool
  | _, [] => true
  | start, (low, high) :: rest => start ≤ low && low ≤ high && ascendFrom (high + 1) rest

/-- A set of characters. -/
structure CharacterSet where
  ranges : List (Nat × Nat)
  ascending : CharacterSet.ascendFrom 0 ranges = true

namespace CharacterSet

def contains (set : CharacterSet) (character : Char) : Bool :=
  (set.ranges.find? fun range ↦ character.toNat ≤ range.2).any fun range ↦
    range.1 ≤ character.toNat

theorem le_of_mem_of_ascendFrom {start : Nat} {ranges : List (Nat × Nat)} {range : Nat × Nat}
    (hascend : ascendFrom start ranges = true) (hmem : range ∈ ranges) : start ≤ range.1 := by
  induction ranges generalizing start with
  | nil => simp at hmem
  | cons first rest ih =>
    simp only [ascendFrom, Bool.and_eq_true, decide_eq_true_eq] at hascend
    rcases List.mem_cons.1 hmem with rfl | hrest
    · exact hascend.1.1
    · have := ih hascend.2 hrest
      omega

/-- The first range that ends behind a number is the only one that can hold it. -/
theorem any_find?_iff {start number : Nat} {ranges : List (Nat × Nat)}
    (hascend : ascendFrom start ranges = true) :
    ((ranges.find? fun range ↦ number ≤ range.2).any fun range ↦ range.1 ≤ number) = true ↔
      ∃ range ∈ ranges, range.1 ≤ number ∧ number ≤ range.2 := by
  induction ranges generalizing start with
  | nil => simp
  | cons first rest ih =>
    simp only [ascendFrom, Bool.and_eq_true, decide_eq_true_eq] at hascend
    by_cases hends : number ≤ first.2
    · have hfurther : ¬ ∃ range ∈ rest, range.1 ≤ number ∧ number ≤ range.2 := by
        rintro ⟨range, hmem, hlow, _⟩
        have := le_of_mem_of_ascendFrom hascend.2 hmem
        omega
      simp only [List.find?_cons, hends, decide_true, Option.any_some, decide_eq_true_eq,
        List.mem_cons, exists_eq_or_imp, hfurther, and_true, or_false]
    · simp only [List.find?_cons, hends, decide_false, List.mem_cons, exists_eq_or_imp, and_false,
        false_or]
      exact ih hascend.2

/-- A character belongs to the set if one of the ranges holds its number. -/
theorem contains_iff (set : CharacterSet) (character : Char) :
    set.contains character = true ↔
      ∃ range ∈ set.ranges, range.1 ≤ character.toNat ∧ character.toNat ≤ range.2 :=
  any_find?_iff set.ascending

end CharacterSet

end HuffmanCoding
