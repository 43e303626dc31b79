import HuffmanCoding.Proofs.Tree.LengthLimit
import HuffmanCoding.Tree.LimitInWords

/-!
# Keeping lengths within a bound, in words

On full counts every number stays in its range, since the longest codewords are an even number and
no count exceeds the number of all codewords. A step is refused only if there are more codewords
than the bound allows (`IsFull.raisePairInWords_cases`). A run on words therefore comes to what
`limit` says, and this is a refusal exactly if there are too many codewords (`limit_isExact`).
-/

set_option autoImplicit false
set_option relaxedAutoImplicit false

namespace HuffmanCoding.LengthCounts

open Finset

/-! ### One step -/

/-- Three counts are together at most the number of all codewords. -/
theorem ofLength_add_le_total {counts : LengthCounts} {first second third : ℕ}
    (hfirst : first < second) (hsecond : second < third) (hthird : third < counts.length) :
    counts.ofLength first + counts.ofLength second + counts.ofLength third ≤ counts.total := by
  have hmember : ∀ length ∈ ({first, second, third} : Finset ℕ), length ∈ range counts.length := by
    simp only [mem_insert, mem_singleton, mem_range]
    omega
  have hsum := sum_le_sum_of_subset (f := counts.ofLength) hmember
  rw [sum_insert (by simp; omega), sum_pair hsecond.ne, ← add_assoc] at hsum
  rwa [total_eq_sum_range counts counts.length fun length h ↦ ofLength_eq_zero h]

/-- A step stays in the range of words that have room for the number of all codewords. -/
theorem CanRaise.raisePairInWords_eq {size bound length : ℕ} {counts : LengthCounts}
    (h : counts.CanRaise length) (hwords : counts.total < size) :
    counts.raisePairInWords size bound length =
      some (.ok (counts.afterRaise length (counts.longestUpTo (length - 2)))) := by
  have hshorter := h.shorter_add_two_le
  have hsize := h.lt_size
  have htwo := h.two_le
  have hone := h.one_le
  have hup := ofLength_add_le_total
    (by omega : counts.longestUpTo (length - 2) < length - 1) (by omega) hsize
  have hsucc : counts.longestUpTo (length - 2) < counts.longestUpTo (length - 2) + 1 := by omega
  have hdown := ofLength_add_le_total hsucc (by omega) hsize
  simp only [raisePairInWords, if_neg h.two_le_length.not_gt, if_neg h.shorter_pos.ne',
    Option.bind_eq_bind, Option.bind_eq_some_iff, takeOff_eq_some_iff, addOn_eq_some_iff]
  generalize counts.longestUpTo (length - 2) = shorter at *
  refine ⟨_, ⟨⟨hsize, htwo⟩, rfl⟩, _, ⟨⟨?_, ?_⟩, rfl⟩, _, ⟨⟨?_, ?_⟩, rfl⟩, _, ⟨⟨?_, ?_⟩, rfl⟩, rfl⟩
  · rw [List.length_modify]
    omega
  · rw [ofLength_modify_of_ne _ (by omega)]
    omega
  · simp only [List.length_modify]
    omega
  · rw [ofLength_modify (by rw [List.length_modify]; omega), ofLength_modify_of_ne _ (by omega),
      ofLength_modify_of_ne _ (by omega)]
    split_ifs with hsame <;> omega
  · simp only [List.length_modify]
    omega
  · rw [ofLength_modify_of_ne _ (by omega), ofLength_modify_of_ne _ (by omega),
      ofLength_modify_of_ne _ (by omega)]
    exact hone

section Full

variable {counts : LengthCounts} {size bound length : ℕ}

/-- Full counts allow a step, or no codeword is short enough since there are too many. -/
theorem IsFull.raisePairInWords_cases (h : counts.IsFull length) (hbound : 1 ≤ bound)
    (hlength : bound < length) (hsize : length < counts.length)
    (hpos : 0 < counts.ofLength length) (hwords : counts.total < size) :
    counts.CanRaise length ∧ counts.raisePairInWords size bound length =
        some (.ok (counts.afterRaise length (counts.longestUpTo (length - 2)))) ∨
      counts.raisePair length = none ∧ 2 ^ bound < counts.total ∧
        counts.raisePairInWords size bound length =
          some (.error (.alphabetTooLarge counts.total (1 <<< bound))) := by
  have htwo : 2 ≤ length := by omega
  by_cases hnone : counts.longestUpTo (length - 2) = 0
  · have hmany : 2 ^ bound < counts.total := by
      by_contra hfew
      obtain ⟨shorter, rfl⟩ := Nat.exists_eq_add_of_le' htwo
      have hfits : counts.total ≤ 2 ^ (shorter + 1) :=
        (Nat.le_of_not_lt hfew).trans (Nat.pow_le_pow_right (by omega) (by omega))
      exact absurd hnone (h.longestUpTo_pos hpos hfits).ne'
    refine Or.inr ⟨?_, hmany, ?_⟩
    · rw [raisePair, if_pos hnone]
    · have hfits : counts.total < size ∧ 1 <<< bound < size := by
        rw [Nat.one_shiftLeft]
        exact ⟨hwords, hmany.trans hwords⟩
      simp only [raisePairInWords, if_neg htwo.not_gt, if_pos hnone, if_pos hfits]
  · have hcan := h.canRaise_of_shorter htwo hsize hpos (Nat.pos_of_ne_zero hnone)
    exact Or.inl ⟨hcan, hcan.raisePairInWords_eq hwords⟩

/-- Full counts are of at most as many codewords as there are bit sequences of the greatest
length. -/
theorem IsFull.total_le (h : counts.IsFull length) : counts.total ≤ 2 ^ length := by
  rw [counts.total_eq_sum_range (length + 1) fun other ↦ h.none_longer other,
    ← h.sum_mul_two_pow]
  exact sum_le_sum fun other _ ↦ Nat.le_mul_of_pos_right _ (Nat.two_pow_pos _)

/-! ### Whole runs -/

theorem raiseAllInWords_of_ok {next : LengthCounts} (hpos : 0 < counts.ofLength length)
    (hstep : counts.raisePairInWords size bound length = some (.ok next)) :
    counts.raiseAllInWords size bound length = next.raiseAllInWords size bound length := by
  rw [raiseAllInWords, if_neg hpos.ne']
  split
  · rename_i other hother
    rw [hstep] at hother
    cases hother
    rfl
  · rename_i hstopped
    exact absurd hstep (hstopped next)

theorem raiseAllInWords_of_error {error : Error} (hpos : 0 < counts.ofLength length)
    (hstep : counts.raisePairInWords size bound length = some (.error error)) :
    counts.raiseAllInWords size bound length = some (.error error) := by
  rw [raiseAllInWords, if_neg hpos.ne']
  split
  · rename_i next hnext
    rw [hstep] at hnext
    cases hnext
  · exact hstep

/-- All of the longest codewords are taken away, in the pairs that they are, or this is refused
since there are too many codewords. -/
theorem IsFull.raiseAllInWords_cases {pairs : ℕ} (h : counts.IsFull length) (hbound : 1 ≤ bound)
    (hlength : bound < length) (hsize : length < counts.length)
    (hpairs : counts.ofLength length = 2 * pairs) (hwords : counts.total < size) :
    (∃ next, raisePairs length pairs counts = some next ∧ Raised length pairs counts next ∧
        counts.raiseAllInWords size bound length = some (.ok next)) ∨
      raisePairs length pairs counts = none ∧ 2 ^ bound < counts.total ∧
        counts.raiseAllInWords size bound length =
          some (.error (.alphabetTooLarge counts.total (1 <<< bound))) := by
  induction pairs generalizing counts with
  | zero =>
    refine Or.inl ⟨counts, rfl, Raised.refl length counts, ?_⟩
    rw [raiseAllInWords, if_pos hpairs]
  | succ pairs ih =>
    have hpos : 0 < counts.ofLength length := by omega
    rcases h.raisePairInWords_cases hbound hlength hsize hpos hwords with
      ⟨hcan, hstep⟩ | ⟨hnone, hmany, hstep⟩
    · have hraised := hcan.raised
      have hleft := hraised.ofLength_add
      have hrest := ih (hraised.isFull h) (by rw [hraised.size_eq]; exact hsize) (by omega)
        (by rw [hraised.total_eq]; exact hwords)
      rw [hraised.total_eq] at hrest
      rw [raiseAllInWords_of_ok hpos hstep, raisePairs, hcan.raisePair_eq, Option.bind_some]
      refine hrest.imp_left ?_
      rintro ⟨next, hnext, hmore, hrun⟩
      exact ⟨next, hnext, hraised.trans hmore, hrun⟩
    · refine Or.inr ⟨?_, hmany, raiseAllInWords_of_error hpos hstep⟩
      rw [raisePairs, hnone, Option.bind_none]

/-- A run over the lengths above a bound leaves full counts within the bound, or it is refused since
there are too many codewords. -/
theorem IsFull.raiseLevelsInWords_cases {levels : ℕ} (h : counts.IsFull (bound + levels))
    (hbound : 1 ≤ bound) (hsize : bound + levels < counts.length) (hwords : counts.total < size) :
    (∃ limited, raiseLevels bound levels counts = some limited ∧
        limited.length = counts.length ∧ counts.total ≤ 2 ^ bound ∧
        counts.raiseLevelsInWords size bound levels = some (.ok limited)) ∨
      raiseLevels bound levels counts = none ∧ 2 ^ bound < counts.total ∧
        counts.raiseLevelsInWords size bound levels =
          some (.error (.alphabetTooLarge counts.total (1 <<< bound))) := by
  induction levels generalizing counts with
  | zero => exact Or.inl ⟨counts, rfl, rfl, h.total_le, rfl⟩
  | succ levels ih =>
    rw [← Nat.add_assoc] at h hsize
    obtain ⟨pairs, hpairs⟩ := h.even_ofLength (by omega)
    have hhalf : (counts.ofLength (bound + levels + 1) + 1) / 2 = pairs := by omega
    simp only [raiseLevels, raiseLevelsInWords, hhalf]
    rcases h.raiseAllInWords_cases hbound (by omega) hsize hpairs hwords with
      ⟨next, hnext, hraised, hrun⟩ | ⟨hnone, hmany, hrun⟩
    · have hgone := hraised.ofLength_add
      have hrest := ih ((hraised.isFull h).pred (by omega)) (by rw [hraised.size_eq]; omega)
        (by rw [hraised.total_eq]; exact hwords)
      rw [hraised.total_eq, hraised.size_eq] at hrest
      rw [hrun, hnext, Option.bind_some]
      exact hrest
    · rw [hrun, hnone, Option.bind_none]
      exact Or.inr ⟨rfl, hmany, rfl⟩

/-- Full counts are brought within a bound, or refused since there are too many codewords, and so
they are by a run on words. -/
theorem IsFull.limitInWords_cases (h : counts.IsFull (counts.length - 1)) (hbound : 1 ≤ bound)
    (hdeep : bound < counts.length - 1) (hwords : counts.total < size) :
    (∃ limited, counts.limit bound = .ok limited ∧ limited.length = bound + 1 ∧
        counts.total ≤ 2 ^ bound ∧ counts.limitInWords size bound = some (.ok limited)) ∨
      2 ^ bound < counts.total ∧
        counts.limit bound = .error (.alphabetTooLarge counts.total (2 ^ bound)) ∧
        counts.limitInWords size bound =
          some (.error (.alphabetTooLarge counts.total (2 ^ bound))) := by
  have hlevels : bound + (counts.length - 1 - bound) = counts.length - 1 := by omega
  have hnonempty : counts.length ≠ 0 := by omega
  rw [← hlevels] at h
  rw [limitInWords, if_neg hnonempty, limit, Nat.one_shiftLeft]
  rcases h.raiseLevelsInWords_cases hbound (by omega) hwords with
    ⟨limited, hlimited, hsize, hfew, hrun⟩ | ⟨hnone, hmany, hrun⟩
  · rw [hlimited, hrun]
    refine Or.inl ⟨limited.take (bound + 1), rfl, ?_, hfew, rfl⟩
    rw [List.length_take, hsize]
    omega
  · rw [hnone, hrun, Nat.one_shiftLeft]
    exact Or.inr ⟨hmany, rfl, rfl⟩

theorem IsFull.limitInWords_eq (h : counts.IsFull (counts.length - 1)) (hbound : 1 ≤ bound)
    (hdeep : bound < counts.length - 1) (hwords : counts.total < size) :
    counts.limitInWords size bound = some (counts.limit bound) := by
  rcases h.limitInWords_cases hbound hdeep hwords with ⟨_, hlimit, _, _, hrun⟩ | ⟨_, hlimit, hrun⟩
  · rw [hlimit, hrun]
  · rw [hlimit, hrun]

end Full

/-- Full counts whose greatest length is above a bound are brought within it exactly if the bound
leaves enough codewords, and are refused with both numbers else. What comes out ends with the bound,
which some codeword reaches, and counts as many codewords, which take up all bit sequences again.
The run on words that have room for the number of codewords comes to the same: no number leaves its
range on the way. -/
theorem limit_isExact {counts : LengthCounts} {bound : ℕ}
    (hkraft : counts.sumOf kraftShare = 1) (hused : 0 < counts.ofLength (counts.length - 1))
    (hbound : 1 ≤ bound) (hdeep : bound < counts.length - 1) :
    ((∃ limited, counts.limit bound = .ok limited) ↔ counts.total ≤ 2 ^ bound) ∧
    (2 ^ bound < counts.total →
      counts.limit bound = .error (.alphabetTooLarge counts.total (2 ^ bound))) ∧
    (∀ limited, counts.limit bound = .ok limited →
      limited.length = bound + 1 ∧ limited.total = counts.total ∧
        limited.sumOf kraftShare = 1 ∧ 0 < limited.ofLength bound) ∧
    ∀ size, counts.total < size → counts.limitInWords size bound = some (counts.limit bound) := by
  have hfull : counts.IsFull (counts.length - 1) :=
    ⟨hkraft, fun length hlength ↦ ofLength_eq_zero (by omega)⟩
  have hwords (size : ℕ) (hroom : counts.total < size) := hfull.limitInWords_eq hbound hdeep hroom
  rcases hfull.limitInWords_cases hbound hdeep (Nat.lt_succ_self _) with
    ⟨limited, hlimited, hlength, hfew, _⟩ | ⟨hmany, herror, _⟩
  · obtain ⟨found, hfound, hleft, _⟩ :=
      hfull.limit_eq_ok (by omega) hused hbound hdeep.le hfew
    refine ⟨iff_of_true ⟨limited, hlimited⟩ hfew, fun hmany ↦ absurd hfew hmany.not_ge,
      fun other hother ↦ ?_, hwords⟩
    rw [hother, Except.ok.injEq] at hlimited hfound
    subst hlimited hfound
    exact ⟨hlength, hleft.total_eq, hleft.isFull.kraft_eq_one, hleft.reaches⟩
  · have hnone (limited : LengthCounts) : counts.limit bound ≠ .ok limited := by
      rw [herror]
      exact nofun
    exact ⟨iff_of_false (not_exists.mpr hnone) hmany.not_ge, fun _ ↦ herror,
      fun limited hlimited ↦ absurd hlimited (hnone limited), hwords⟩

/-- Lengths of one, two, three, four and twice five bits are brought within three bits, also on
words of eight values. Within two bits there is no room for six codewords. -/
theorem limit_isExact_of_six_lengths :
    let counts : LengthCounts := [0, 1, 1, 1, 1, 2]
    counts.sumOf kraftShare = 1 ∧ sumOf [0, 0, 2, 4] kraftShare = 1 ∧
      counts.limitInWords 8 3 = some (.ok [0, 0, 2, 4]) ∧
      counts.limitInWords 8 2 = some (.error (.alphabetTooLarge 6 4)) := by
  intro counts
  have hkraft : counts.sumOf kraftShare = 1 := by
    simp [counts, sumOf, ofLength, sum_range_succ, kraftShare]
    norm_num
  have hlimit : limit [0, 1, 1, 1, 1, 2] 3 = .ok [0, 0, 2, 4] := rfl
  obtain ⟨_, _, hlimited, hwords⟩ := limit_isExact hkraft (by decide) (by decide : 1 ≤ 3)
    (by decide)
  obtain ⟨_, hrefused, _, hnarrow⟩ := limit_isExact hkraft (by decide) (by decide : 1 ≤ 2)
    (by decide)
  refine ⟨hkraft, (hlimited _ hlimit).2.2.1, ?_, ?_⟩
  · rw [hwords 8 (by decide), hlimit]
  · rw [hnarrow 8 (by decide), hrefused (by decide)]
    rfl

end HuffmanCoding.LengthCounts
