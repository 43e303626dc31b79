import HuffmanCoding.Proofs.Kraft
import HuffmanCoding.Tree.LengthLimit
import Mathlib.Algebra.BigOperators.Intervals
import Mathlib.Algebra.BigOperators.Ring.Finset

/-!
# Counts of codeword lengths

What counts of codewords by their length are good for is sums over all codewords: of the number one,
which is their number (`total_eq_sumOf`), and of what each takes up, which is a Kraft sum. Changing
one count changes such a sum by what the new codewords add (`sumOf_modify`), and counting some
lengths keeps it (`sumOf_ofLengths`).

Counts are full if the codewords take up all bit sequences (`IsFull`). Then the number of the
longest codewords is even (`IsFull.even_ofLength`), and unless there are more codewords than bit
sequences one bit shorter than these, some codeword is shorter by at least two bits
(`IsFull.longestUpTo_pos`).
-/

set_option autoImplicit false
set_option relaxedAutoImplicit false

namespace HuffmanCoding.LengthCounts

open Finset

/-! ### Sums over all codewords -/

/-- The sum of a value of each length over all counted codewords. -/
def sumOf (counts : LengthCounts) (value : ℕ → ℚ) : ℚ :=
  ∑ length ∈ range counts.length, counts.ofLength length * value length

theorem ofLength_eq_zero {counts : LengthCounts} {length : ℕ} (h : counts.length ≤ length) :
    counts.ofLength length = 0 := by
  simp [ofLength, List.getD_eq_getElem?_getD, List.getElem?_eq_none h]

/-- A sum over all codewords can be taken up to any length behind which there are none. -/
theorem sumOf_eq_sum_range (counts : LengthCounts) (above : ℕ)
    (h : ∀ length, above ≤ length → counts.ofLength length = 0) (value : ℕ → ℚ) :
    counts.sumOf value = ∑ length ∈ range above, counts.ofLength length * value length := by
  rcases Nat.le_total counts.length above with hle | hle
  · refine sum_subset (range_mono hle) fun length _ hout ↦ ?_
    rw [ofLength_eq_zero (by simpa using hout)]
    simp
  · refine (sum_subset (range_mono hle) fun length _ hout ↦ ?_).symm
    rw [h length (by simpa using hout)]
    simp

theorem sumOf_cons (count : ℕ) (counts : LengthCounts) (value : ℕ → ℚ) :
    sumOf (count :: counts) value =
      count * value 0 + counts.sumOf fun length ↦ value (length + 1) := by
  rw [sumOf, List.length_cons, sum_range_succ', add_comm]
  rfl

/-- The number of codewords counts each of them once. -/
theorem total_eq_sumOf (counts : LengthCounts) : (counts.total : ℚ) = counts.sumOf fun _ ↦ 1 := by
  induction counts with
  | nil => simp [total, sumOf]
  | cons count counts ih =>
    rw [sumOf_cons, ← ih]
    simp [total]

/-- Changing one count changes a sum by what the new codewords add. -/
theorem sumOf_modify {counts : LengthCounts} {place : ℕ} (hplace : place < counts.length)
    (change : ℕ → ℕ) (value : ℕ → ℚ) :
    sumOf (counts.modify place change) value = counts.sumOf value +
      ((change (counts.ofLength place) : ℚ) - counts.ofLength place) * value place := by
  have hdifference : sumOf (counts.modify place change) value - counts.sumOf value =
      ∑ length ∈ range counts.length, if length = place then
        ((change (counts.ofLength place) : ℚ) - counts.ofLength place) * value place else 0 := by
    rw [sumOf, sumOf, List.length_modify, ← sum_sub_distrib]
    refine sum_congr rfl fun length _ ↦ ?_
    rw [ofLength_modify hplace]
    by_cases h : length = place
    · subst length
      simp only [if_true]
      ring
    · simp [h]
  rw [sum_ite_eq' (range counts.length) place, if_pos (mem_range.mpr hplace)] at hdifference
  linarith

/-! ### Counts that arise from lengths -/

theorem ofLength_replicate (size length : ℕ) : ofLength (List.replicate size 0) length = 0 := by
  rw [ofLength, List.getD_eq_getElem?_getD, List.getElem?_replicate]
  split <;> rfl

theorem length_ofLengths_step (lengths : List ℕ) (counts : LengthCounts) :
    (lengths.foldl (fun counts length ↦ counts.modify length (· + 1)) counts).length =
      counts.length := by
  induction lengths generalizing counts with
  | nil => rfl
  | cons length lengths ih => rw [List.foldl_cons, ih, List.length_modify]

theorem length_ofLengths (deepest : ℕ) (lengths : List ℕ) :
    (ofLengths deepest lengths).length = deepest + 1 := by
  rw [ofLengths, length_ofLengths_step, List.length_replicate]

theorem sumOf_foldl_modify {lengths : List ℕ} {counts : LengthCounts}
    (h : ∀ length ∈ lengths, length < counts.length) (value : ℕ → ℚ) :
    sumOf (lengths.foldl (fun counts length ↦ counts.modify length (· + 1)) counts) value =
      counts.sumOf value + (lengths.map value).sum := by
  induction lengths generalizing counts with
  | nil => simp
  | cons length lengths ih =>
    have hhead : length < counts.length := h length (by simp)
    rw [List.foldl_cons, ih fun other hother ↦ by
      rw [List.length_modify]
      exact h other (List.mem_cons_of_mem length hother)]
    rw [sumOf_modify hhead, List.map_cons, List.sum_cons]
    push_cast
    ring

/-- Counting some lengths keeps every sum over them. -/
theorem sumOf_ofLengths {deepest : ℕ} {lengths : List ℕ}
    (h : ∀ length ∈ lengths, length ≤ deepest) (value : ℕ → ℚ) :
    (ofLengths deepest lengths).sumOf value = (lengths.map value).sum := by
  have hzero : sumOf (List.replicate (deepest + 1) 0) value = 0 := by
    refine sum_eq_zero fun length _ ↦ ?_
    rw [ofLength_replicate]
    simp
  rw [ofLengths, sumOf_foldl_modify fun length hlength ↦ by
    rw [List.length_replicate]
    exact Nat.lt_succ_of_le (h length hlength)]
  rw [hzero, zero_add]

theorem ofLength_foldl_modify {lengths : List ℕ} {counts : LengthCounts}
    (h : ∀ length ∈ lengths, length < counts.length) (length : ℕ) :
    ofLength (lengths.foldl (fun counts length ↦ counts.modify length (· + 1)) counts) length =
      counts.ofLength length + lengths.count length := by
  induction lengths generalizing counts with
  | nil => rfl
  | cons head lengths ih =>
    have hhead : head < counts.length := h head (by simp)
    rw [List.foldl_cons, ih fun other hother ↦ by
      rw [List.length_modify]
      exact h other (List.mem_cons_of_mem head hother)]
    rw [ofLength_modify hhead, List.count_cons]
    by_cases heq : length = head
    · subst length
      simp only [if_true, beq_self_eq_true]
      omega
    · simp [heq, Ne.symm heq]

/-- Each length is counted as often as it occurs. -/
theorem ofLength_ofLengths {deepest : ℕ} {lengths : List ℕ}
    (h : ∀ length ∈ lengths, length ≤ deepest) (length : ℕ) :
    (ofLengths deepest lengths).ofLength length = lengths.count length := by
  rw [ofLengths, ofLength_foldl_modify fun other hother ↦ by
    rw [List.length_replicate]
    exact Nat.lt_succ_of_le (h other hother)]
  rw [ofLength_replicate, Nat.zero_add]

/-! ### Full counts -/

/-- Codewords of the counted lengths take up all bit sequences, and none is longer than
`longest`. -/
structure IsFull (counts : LengthCounts) (longest : ℕ) : Prop where
  kraft_eq_one : counts.sumOf kraftShare = 1
  none_longer : ∀ length, longest < length → counts.ofLength length = 0

/-- The sequences of `longest` bits, sorted by the codeword that begins them. -/
theorem IsFull.sum_mul_two_pow {counts : LengthCounts} {longest : ℕ} (h : counts.IsFull longest) :
    ∑ length ∈ range (longest + 1), counts.ofLength length * 2 ^ (longest - length) =
      2 ^ longest := by
  have hsum := counts.sumOf_eq_sum_range (longest + 1) (fun length ↦ h.none_longer length)
    kraftShare
  rw [h.kraft_eq_one] at hsum
  have hscaled : ((∑ length ∈ range (longest + 1),
      counts.ofLength length * 2 ^ (longest - length) : ℕ) : ℚ) =
        (∑ length ∈ range (longest + 1), counts.ofLength length * kraftShare length) *
          2 ^ longest := by
    rw [sum_mul]
    push_cast
    refine sum_congr rfl fun length hlength ↦ ?_
    have hle : length ≤ longest := Nat.le_of_lt_succ (mem_range.mp hlength)
    rw [mul_assoc, kraftShare_mul_two_pow hle]
    push_cast
    rfl
  rw [← hsum, one_mul] at hscaled
  exact_mod_cast hscaled

/-- The longest codewords are siblings of each other. -/
theorem IsFull.even_ofLength {counts : LengthCounts} {longest : ℕ} (h : counts.IsFull longest)
    (hlongest : 1 ≤ longest) : 2 ∣ counts.ofLength longest := by
  have hsum := h.sum_mul_two_pow
  rw [sum_range_succ, Nat.sub_self, pow_zero, mul_one] at hsum
  have hshorter :
      2 ∣ ∑ length ∈ range longest, counts.ofLength length * 2 ^ (longest - length) := by
    refine dvd_sum fun length hlength ↦ Dvd.dvd.mul_left ?_ _
    have hlt : length < longest := mem_range.mp hlength
    exact dvd_pow_self 2 (by omega)
  have hall : 2 ∣ 2 ^ longest := dvd_pow_self 2 (by omega)
  rw [← hsum] at hall
  exact (Nat.dvd_add_right hshorter).mp hall

theorem total_eq_sum_range (counts : LengthCounts) (above : ℕ)
    (h : ∀ length, above ≤ length → counts.ofLength length = 0) :
    counts.total = ∑ length ∈ range above, counts.ofLength length := by
  have hsum := (total_eq_sumOf counts).trans (sumOf_eq_sum_range counts above h fun _ ↦ 1)
  simp only [mul_one] at hsum
  exact_mod_cast hsum

/-- The empty codeword can only be there on its own. -/
theorem IsFull.ofLength_zero {counts : LengthCounts} {longest length : ℕ}
    (h : counts.IsFull longest) (hlength : 1 ≤ length) (hpos : 0 < counts.ofLength length) :
    counts.ofLength 0 = 0 := by
  by_contra hzero
  have hmem (other : ℕ) (hother : 0 < counts.ofLength other) : other ∈ range counts.length := by
    rw [mem_range]
    by_contra hout
    have := ofLength_eq_zero (Nat.le_of_not_lt hout)
    omega
  have hne : (0 : ℕ) ≠ length := by omega
  have hpair := sum_le_sum_of_subset_of_nonneg (s := {0, length}) (t := range counts.length)
    (f := fun other ↦ (counts.ofLength other : ℚ) * kraftShare other)
    (insert_subset (hmem 0 (Nat.pos_of_ne_zero hzero))
      (singleton_subset_iff.mpr (hmem length hpos)))
    fun other _ _ ↦ mul_nonneg (Nat.cast_nonneg _) (kraftShare_pos other).le
  have hsum : ∑ other ∈ range counts.length, (counts.ofLength other : ℚ) * kraftShare other = 1 :=
    h.kraft_eq_one
  rw [sum_pair hne, hsum, kraftShare_zero, mul_one] at hpair
  have hone : (1 : ℚ) ≤ counts.ofLength 0 := by exact_mod_cast Nat.pos_of_ne_zero hzero
  have hmore : (0 : ℚ) < counts.ofLength length * kraftShare length :=
    mul_pos (by exact_mod_cast hpos) (kraftShare_pos length)
  linarith

/-- The search for a codeword finds the longest one up to the given length, if there is any. -/
theorem longestUpTo_spec (counts : LengthCounts) (length : ℕ) :
    (counts.longestUpTo length ≠ 0 → 0 < counts.ofLength (counts.longestUpTo length)) ∧
      ∀ other, counts.longestUpTo length < other → other ≤ length → counts.ofLength other = 0 := by
  induction length with
  | zero =>
    refine ⟨fun h ↦ absurd rfl h, fun other hlow hhigh ↦ ?_⟩
    exact absurd hlow (Nat.not_lt_of_le hhigh)
  | succ length ih =>
    rw [longestUpTo]
    by_cases hzero : counts.ofLength (length + 1) = 0
    · rw [if_pos hzero]
      refine ⟨ih.1, fun other hlow hhigh ↦ ?_⟩
      rcases Nat.lt_or_eq_of_le hhigh with hlt | rfl
      · exact ih.2 other hlow (Nat.le_of_lt_succ hlt)
      · exact hzero
    · rw [if_neg hzero]
      exact ⟨fun _ ↦ Nat.pos_of_ne_zero hzero, fun other hlow hhigh ↦ by omega⟩

/-- If the codewords are not too many for a length that is one bit shorter, some codeword is at
least two bits shorter than the longest ones. -/
theorem IsFull.longestUpTo_pos {counts : LengthCounts} {longest : ℕ}
    (h : counts.IsFull (longest + 2)) (hpos : 0 < counts.ofLength (longest + 2))
    (htotal : counts.total ≤ 2 ^ (longest + 1)) : 0 < counts.longestUpTo longest := by
  by_contra hnone
  have hzero := h.ofLength_zero (by omega) hpos
  have hshort : ∀ length ∈ range (longest + 1), counts.ofLength length = 0 := by
    intro length hlength
    rcases Nat.eq_zero_or_pos length with rfl | hlow
    · exact hzero
    · exact (counts.longestUpTo_spec longest).2 length (by omega)
        (Nat.le_of_lt_succ (mem_range.mp hlength))
  have hsum := h.sum_mul_two_pow
  have hcount := counts.total_eq_sum_range (longest + 3) fun length ↦ h.none_longer length
  rw [sum_range_succ, sum_range_succ, sum_eq_zero fun length hlength ↦ by
    rw [hshort length hlength, Nat.zero_mul]] at hsum
  rw [sum_range_succ, sum_range_succ, sum_eq_zero hshort] at hcount
  -- Twice the codewords are now the bit sequences of the greatest length and more.
  have hdouble : 2 * counts.total = 2 ^ (longest + 2) + counts.ofLength (longest + 2) := by
    rw [hcount, ← hsum, Nat.sub_self, show longest + 2 - (longest + 1) = 1 by omega]
    omega
  rw [pow_succ] at hdouble
  omega

end HuffmanCoding.LengthCounts
