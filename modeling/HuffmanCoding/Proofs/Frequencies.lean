import HuffmanCoding.Frequencies
import Mathlib.Data.List.Nodup
import Mathlib.Data.List.Perm.Subperm
import Mathlib.Data.Nat.Notation

/-!
# Counted symbols

Counting never stores a weight of zero (`Frequencies.IsCounted`), so a table that was counted and
holds a symbol has a total (`IsCounted.total_ne_zero`). Forgetting rare symbols makes a table
smaller, or leaves it as it was (`keepAtLeast_eq_self`). There are no more characters than
numbers for them, so a table of characters is never large (`size_le_of_characters`).
-/

set_option autoImplicit false
set_option relaxedAutoImplicit false

namespace HuffmanCoding

/-! ### Sums of weights -/

namespace Weight

/-- A sum is no less than its first summand. -/
theorem toNat_le_foldl (weights : List Weight) (first : Weight) :
    first.toNat ≤ (weights.foldl (· + ·) first).toNat := by
  induction weights generalizing first with
  | nil => exact Nat.le_refl _
  | cons weight weights ih =>
    refine Nat.le_trans ?_ (ih (first + weight))
    rw [toNat_add]
    exact Nat.le_min.mpr ⟨Nat.le_add_right _ _, first.toNat_le⟩

/-- Weights of which the first one is not zero have a sum. -/
theorem sum_cons_ne_zero {weight : Weight} (h : weight ≠ 0) (weights : List Weight) :
    sum (weight :: weights) ≠ 0 := by
  intro hzero
  have hle := toNat_le_foldl weights (0 + weight)
  rw [sum, List.foldl_cons] at hzero
  rw [hzero, toNat_add, toNat_zero, Nat.zero_add, Nat.min_eq_left weight.toNat_le] at hle
  exact h (Weight.ext (Nat.le_zero.mp hle))

end Weight

namespace Frequencies

variable {S : Type} [Symbol S]

/-! ### Tables that were counted -/

/-- Every symbol in the table was seen. -/
def IsCounted (frequencies : Frequencies S) : Prop :=
  ∀ (symbol : S) (weight : Weight), frequencies.weights[symbol]? = some weight → weight ≠ 0

theorem isCounted_empty : (empty : Frequencies S).IsCounted := by
  intro symbol weight hweight
  rw [empty, Std.ExtTreeMap.getElem?_empty] at hweight
  cases hweight

variable {frequencies : Frequencies S}

theorem IsCounted.add (h : frequencies.IsCounted) (symbol : S) (occurrences : Weight) :
    (frequencies.add symbol occurrences).IsCounted := by
  unfold Frequencies.add
  split_ifs with hnone
  · exact h
  · intro other weight hweight
    rw [Std.ExtTreeMap.getElem?_alter] at hweight
    split_ifs at hweight
    · rw [Option.some.injEq] at hweight
      subst hweight
      intro hzero
      refine hnone (Weight.ext ?_)
      have hnat := congrArg Weight.toNat hzero
      rw [Weight.toNat_add, Weight.toNat_zero] at hnat
      have hlimit : 0 < Weight.limit := by decide
      rw [Weight.toNat_zero]
      omega
    · exact h other weight hweight

theorem IsCounted.addAll (h : frequencies.IsCounted) (symbols : List S) :
    (frequencies.addAll symbols).IsCounted := by
  unfold Frequencies.addAll
  induction symbols generalizing frequencies with
  | nil => exact h
  | cons symbol symbols ih => exact ih (h.add symbol 1)

theorem IsCounted.keepAtLeast (h : frequencies.IsCounted) (cutoff : Weight) :
    (frequencies.keepAtLeast cutoff).IsCounted := by
  intro symbol weight hweight
  rw [Frequencies.keepAtLeast, Std.ExtTreeMap.getElem?_filter,
    Option.pfilter_eq_some_iff] at hweight
  exact h symbol weight hweight.choose

/-- Where symbols were seen, something was seen. -/
theorem IsCounted.total_ne_zero (h : frequencies.IsCounted) (hsome : ¬ frequencies.isEmpty = true) :
    frequencies.total ≠ 0 := by
  rw [total]
  cases hlist : frequencies.toList with
  | nil =>
    refine absurd ?_ hsome
    rw [isEmpty, ← Std.ExtTreeMap.isEmpty_toList,
      show frequencies.weights.toList = [] from hlist, List.isEmpty_nil]
  | cons entry entries =>
    have hmem : (entry.1, entry.2) ∈ frequencies.weights.toList := by
      rw [show frequencies.weights.toList = entry :: entries from hlist]
      exact List.mem_cons_self
    exact Weight.sum_cons_ne_zero
      (h entry.1 entry.2 (Std.ExtTreeMap.mem_toList_iff_getElem?_eq_some.mp hmem)) _

/-- A symbol that was counted is in the table. -/
theorem mem_add (frequencies : Frequencies S) (symbol : S) :
    symbol ∈ (frequencies.add symbol 1).weights := by
  rw [Frequencies.add, if_neg (by decide), Std.ExtTreeMap.mem_iff_isSome_getElem?,
    Std.ExtTreeMap.getElem?_alter, if_pos Std.ReflCmp.compare_self]
  rfl

/-- One sequence is counted after the other. -/
theorem addAll_append (frequencies : Frequencies S) (first second : List S) :
    frequencies.addAll (first ++ second) = (frequencies.addAll first).addAll second :=
  List.foldl_append

/-! ### Rare symbols -/

theorem size_keepAtLeast_le (frequencies : Frequencies S) (cutoff : Weight) :
    (frequencies.keepAtLeast cutoff).size ≤ frequencies.size :=
  Std.ExtTreeMap.size_filter_le_size

/-- A table that does not get smaller stays as it is. -/
theorem keepAtLeast_eq_self {cutoff : Weight}
    (h : ¬ (frequencies.keepAtLeast cutoff).size < frequencies.size) :
    frequencies.keepAtLeast cutoff = frequencies := by
  have hsize := Nat.le_antisymm (size_keepAtLeast_le frequencies cutoff) (Nat.not_lt.mp h)
  exact congrArg Frequencies.mk
    (Std.ExtTreeMap.filter_eq_self_iff.mpr (Std.ExtTreeMap.size_filter_eq_size_iff.mp hsize))

/-! ### Tables of characters -/

/-- A table of characters has at most as many entries as there are numbers for characters. -/
theorem size_le_of_characters (frequencies : Frequencies Char) :
    frequencies.size ≤ 0x110000 := by
  have hnodup : (frequencies.weights.keys.map Char.toNat).Nodup :=
    Std.ExtTreeMap.nodup_keys.map fun first second hsame ↦ Char.ext (UInt32.toNat_inj.mp hsame)
  have hsub : frequencies.weights.keys.map Char.toNat ⊆ List.range 0x110000 := by
    intro number hnumber
    obtain ⟨character, _, rfl⟩ := List.mem_map.mp hnumber
    rw [List.mem_range]
    rcases character.valid with hlow | ⟨_, hhigh⟩
    · exact Nat.lt_trans hlow (by decide)
    · exact hhigh
  have hlength := (List.subperm_of_subset hnodup hsub).length_le
  rw [List.length_map, List.length_range, Std.ExtTreeMap.length_keys] at hlength
  exact hlength

end Frequencies

end HuffmanCoding
