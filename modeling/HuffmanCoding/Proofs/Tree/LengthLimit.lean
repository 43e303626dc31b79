import HuffmanCoding.Proofs.Tree.LengthCounts

/-!
# Keeping lengths within a bound

A step takes two of the longest codewords away and gives the room to two others, so the number of
codewords and their Kraft sum stay as they are (`CanRaise.raised`). Full counts allow such a step as
long as a shorter length suffices for that many codewords (`IsFull.canRaise`), and as the number of
the longest codewords is even, they can all be taken away in pairs.

`limit_eq_ok` puts the steps of a run together: the result is full again, counts as many codewords
and reaches the bound, and no step takes away more than there is (`RaisesLevels`).
-/

set_option autoImplicit false
set_option relaxedAutoImplicit false

namespace HuffmanCoding.LengthCounts

/-! ### One step -/

/-- A pair of codewords of some length can be taken away: there is such a pair, there is a codeword
that is shorter by at least two bits, and no count is out of range. -/
structure CanRaise (counts : LengthCounts) (length : ℕ) : Prop where
  two_le_length : 2 ≤ length
  lt_size : length < counts.length
  two_le : 2 ≤ counts.ofLength length
  shorter_pos : 0 < counts.longestUpTo (length - 2)
  one_le : 1 ≤ counts.ofLength (counts.longestUpTo (length - 2))

/-- What taking away some pairs of codewords of a length does to the counts. -/
structure Raised (length pairs : ℕ) (counts next : LengthCounts) : Prop where
  size_eq : next.length = counts.length
  total_eq : next.total = counts.total
  kraft_eq : next.sumOf kraftShare = counts.sumOf kraftShare
  ofLength_add : next.ofLength length + 2 * pairs = counts.ofLength length
  add_le_ofLength : counts.ofLength (length - 1) + pairs ≤ next.ofLength (length - 1)
  longer_eq : ∀ other, length < other → next.ofLength other = counts.ofLength other

theorem Raised.refl (length : ℕ) (counts : LengthCounts) : Raised length 0 counts counts :=
  ⟨rfl, rfl, rfl, rfl, le_rfl, fun _ _ ↦ rfl⟩

theorem Raised.trans {length pairs more : ℕ} {first middle last : LengthCounts}
    (hfirst : Raised length pairs first middle) (hlast : Raised length more middle last) :
    Raised length (more + pairs) first last where
  size_eq := hlast.size_eq.trans hfirst.size_eq
  total_eq := hlast.total_eq.trans hfirst.total_eq
  kraft_eq := hlast.kraft_eq.trans hfirst.kraft_eq
  ofLength_add := by
    have := hfirst.ofLength_add
    have := hlast.ofLength_add
    omega
  add_le_ofLength := by
    have := hfirst.add_le_ofLength
    have := hlast.add_le_ofLength
    omega
  longer_eq := fun other h ↦ (hlast.longer_eq other h).trans (hfirst.longer_eq other h)

/-- The counts after one step: one codeword moves up from `length`, the other one and a codeword of
length `shorter` become siblings. -/
def afterRaise (counts : LengthCounts) (length shorter : ℕ) : LengthCounts :=
  (((counts.modify length (· - 2)).modify (length - 1) (· + 1)).modify (shorter + 1) (· + 2)).modify
    shorter (· - 1)

theorem CanRaise.raisePair_eq {counts : LengthCounts} {length : ℕ} (h : counts.CanRaise length) :
    counts.raisePair length =
      some (counts.afterRaise length (counts.longestUpTo (length - 2))) := by
  rw [raisePair, if_neg h.shorter_pos.ne']
  rfl

section Step

variable {counts : LengthCounts} {length shorter : ℕ}

theorem ofLength_afterRaise (hlength : length < counts.length) (hshorter : shorter + 2 ≤ length)
    (other : ℕ) :
    (counts.afterRaise length shorter).ofLength other =
      if other = shorter then counts.ofLength shorter - 1
      else if other = shorter + 1 then
        (if other = length - 1 then counts.ofLength (length - 1) + 1
          else counts.ofLength (shorter + 1)) + 2
      else if other = length - 1 then counts.ofLength (length - 1) + 1
      else if other = length then counts.ofLength length - 2
      else counts.ofLength other := by
  have hone : length - 1 < (counts.modify length (· - 2)).length := by
    rw [List.length_modify]
    omega
  have htwo : shorter + 1 <
      ((counts.modify length (· - 2)).modify (length - 1) (· + 1)).length := by
    simp only [List.length_modify]
    omega
  have hthree : shorter < (((counts.modify length (· - 2)).modify (length - 1) (· + 1)).modify
      (shorter + 1) (· + 2)).length := by
    simp only [List.length_modify]
    omega
  rw [afterRaise, ofLength_modify hthree, ofLength_modify htwo, ofLength_modify htwo,
    ofLength_modify hone, ofLength_modify hone, ofLength_modify hone, ofLength_modify hlength,
    ofLength_modify hlength, ofLength_modify hlength, ofLength_modify hlength]
  split_ifs <;> first | rfl | omega

/-- A step changes a sum over all codewords by what the four codewords add that it moves. -/
theorem sumOf_afterRaise (hlength : length < counts.length) (hshorter : shorter + 2 ≤ length)
    (htwo : 2 ≤ counts.ofLength length) (hone : 1 ≤ counts.ofLength shorter) (value : ℕ → ℚ) :
    (counts.afterRaise length shorter).sumOf value = counts.sumOf value - 2 * value length +
      value (length - 1) + 2 * value (shorter + 1) - value shorter := by
  have hinside (place : ℕ) (hplace : place ≤ length) : place < counts.length :=
    hplace.trans_lt hlength
  have hlast : ofLength (((counts.modify length (· - 2)).modify (length - 1) (· + 1)).modify
      (shorter + 1) (· + 2)) shorter = counts.ofLength shorter := by
    rw [ofLength_modify (by simpa using hinside _ (by omega)), if_neg (by omega),
      ofLength_modify (by simpa using hinside _ (by omega)), if_neg (by omega),
      ofLength_modify hlength, if_neg (by omega)]
  rw [afterRaise, sumOf_modify (by simpa using hinside _ (by omega)),
    sumOf_modify (by simpa using hinside _ (by omega)),
    sumOf_modify (by simpa using hinside _ (by omega)), sumOf_modify hlength, hlast]
  push_cast [Nat.cast_sub htwo, Nat.cast_sub hone]
  ring

end Step

theorem CanRaise.shorter_add_two_le {counts : LengthCounts} {length : ℕ}
    (h : counts.CanRaise length) : counts.longestUpTo (length - 2) + 2 ≤ length := by
  have := counts.longestUpTo_le (length - 2)
  have := h.two_le_length
  omega

/-- A step keeps the number of codewords and what they take up. -/
theorem CanRaise.raised {counts : LengthCounts} {length : ℕ} (h : counts.CanRaise length) :
    Raised length 1 counts (counts.afterRaise length (counts.longestUpTo (length - 2))) := by
  have hshorter := h.shorter_add_two_le
  have hpos := h.shorter_pos
  have hsum := sumOf_afterRaise h.lt_size hshorter h.two_le h.one_le
  have hcount := ofLength_afterRaise h.lt_size hshorter
  refine ⟨by simp [afterRaise], ?_, ?_, ?_, ?_, fun other hother ↦ ?_⟩
  · have htotal := hsum fun _ ↦ 1
    rw [← total_eq_sumOf, ← total_eq_sumOf] at htotal
    have : ((counts.afterRaise length (counts.longestUpTo (length - 2))).total : ℚ) =
        counts.total := by
      rw [htotal]
      ring
    exact_mod_cast this
  · rw [hsum kraftShare, kraftShare_eq_two_mul (counts.longestUpTo (length - 2)),
      kraftShare_eq_two_mul (length - 1), Nat.sub_add_cancel (by omega : 1 ≤ length)]
    ring
  · rw [hcount, if_neg (by omega), if_neg (by omega), if_neg (by omega), if_pos rfl]
    have := h.two_le
    omega
  · rw [hcount, if_neg (by omega)]
    split_ifs <;> omega
  · rw [hcount, if_neg (by omega), if_neg (by omega), if_neg (by omega), if_neg (by omega)]

theorem Raised.isFull {length pairs : ℕ} {counts next : LengthCounts}
    (h : Raised length pairs counts next) (hfull : counts.IsFull length) : next.IsFull length where
  kraft_eq_one := h.kraft_eq.trans hfull.kraft_eq_one
  none_longer := fun other hother ↦
    (h.longer_eq other hother).trans (hfull.none_longer other hother)

/-- Full counts allow a step if a codeword is shorter by at least two bits. -/
theorem IsFull.canRaise_of_shorter {counts : LengthCounts} {length : ℕ} (h : counts.IsFull length)
    (htwo : 2 ≤ length) (hsize : length < counts.length) (hpos : 0 < counts.ofLength length)
    (hshorter : 0 < counts.longestUpTo (length - 2)) : counts.CanRaise length where
  two_le_length := htwo
  lt_size := hsize
  two_le := Nat.le_of_dvd hpos (h.even_ofLength (by omega))
  shorter_pos := hshorter
  one_le := (counts.longestUpTo_spec (length - 2)).1 hshorter.ne'

/-- Full counts allow a step if a length that is one bit shorter suffices for the codewords. -/
theorem IsFull.canRaise {counts : LengthCounts} {length : ℕ} (h : counts.IsFull length)
    (htwo : 2 ≤ length) (hsize : length < counts.length) (hpos : 0 < counts.ofLength length)
    (htotal : counts.total ≤ 2 ^ (length - 1)) : counts.CanRaise length := by
  refine h.canRaise_of_shorter htwo hsize hpos ?_
  obtain ⟨shorter, rfl⟩ := Nat.exists_eq_add_of_le' htwo
  exact h.longestUpTo_pos hpos htotal

/-! ### A whole run -/

/-- Taking pairs of codewords of one length away, step by step, never takes away more than there
is, and takes all of them. -/
def RaisesPairs (length : ℕ) : (pairs : ℕ) → LengthCounts → Prop
  | 0, counts => counts.ofLength length = 0
  | pairs + 1, counts => counts.CanRaise length ∧
    ∀ next, counts.raisePair length = some next → RaisesPairs length pairs next

/-- Taking away all codewords of the `levels` lengths above the bound never takes away more than
there is. -/
def RaisesLevels (bound : ℕ) : (levels : ℕ) → LengthCounts → Prop
  | 0, _ => True
  | levels + 1, counts =>
    RaisesPairs (bound + levels + 1) ((counts.ofLength (bound + levels + 1) + 1) / 2) counts ∧
      ∀ next, raisePairs (bound + levels + 1) ((counts.ofLength (bound + levels + 1) + 1) / 2)
        counts = some next → RaisesLevels bound levels next

/-- All of the longest codewords can be taken away in pairs. -/
theorem IsFull.raisePairs_eq {counts : LengthCounts} {length pairs : ℕ} (h : counts.IsFull length)
    (htwo : 2 ≤ length) (hsize : length < counts.length)
    (htotal : counts.total ≤ 2 ^ (length - 1)) (hpairs : counts.ofLength length = 2 * pairs) :
    ∃ next, raisePairs length pairs counts = some next ∧ Raised length pairs counts next ∧
      RaisesPairs length pairs counts := by
  induction pairs generalizing counts with
  | zero => exact ⟨counts, rfl, Raised.refl length counts, hpairs⟩
  | succ pairs ih =>
    have hcan := h.canRaise htwo hsize (by omega) htotal
    have hraised := hcan.raised
    have hleft := hraised.ofLength_add
    obtain ⟨next, hnext, hrest, hexact⟩ := ih (hraised.isFull h)
      (by rw [hraised.size_eq]; exact hsize) (by rw [hraised.total_eq]; exact htotal) (by omega)
    refine ⟨next, ?_, hraised.trans hrest, hcan, fun other hother ↦ ?_⟩
    · rw [raisePairs, hcan.raisePair_eq, Option.bind_some, hnext]
    · rw [hcan.raisePair_eq, Option.some.injEq] at hother
      exact hother ▸ hexact

/-- Once the longest codewords are taken away, the counts are full for one bit less. -/
theorem IsFull.pred {counts : LengthCounts} {length : ℕ} (h : counts.IsFull (length + 1))
    (hnone : counts.ofLength (length + 1) = 0) : counts.IsFull length where
  kraft_eq_one := h.kraft_eq_one
  none_longer := fun other hother ↦ by
    rcases Nat.lt_or_eq_of_le (Nat.succ_le_of_lt hother) with hlt | heq
    · exact h.none_longer other hlt
    · exact heq ▸ hnone

/-- What a run leaves of full counts. -/
structure Limited (bound : ℕ) (counts limited : LengthCounts) : Prop where
  isFull : limited.IsFull bound
  total_eq : limited.total = counts.total
  reaches : 0 < limited.ofLength bound

/-- If the bound leaves enough codewords, a run takes away all codewords above it. -/
theorem IsFull.raiseLevels_eq {counts : LengthCounts} {bound levels : ℕ}
    (h : counts.IsFull (bound + levels)) (hbound : 1 ≤ bound)
    (hsize : bound + levels < counts.length) (htotal : counts.total ≤ 2 ^ bound)
    (hreaches : 0 < counts.ofLength (bound + levels)) :
    ∃ limited, raiseLevels bound levels counts = some limited ∧ Limited bound counts limited ∧
      RaisesLevels bound levels counts := by
  induction levels generalizing counts with
  | zero => exact ⟨counts, rfl, ⟨h, rfl, hreaches⟩, trivial⟩
  | succ levels ih =>
    rw [← Nat.add_assoc] at h hsize hreaches
    obtain ⟨pairs, hpairs⟩ := h.even_ofLength (by omega)
    have hhalf : (counts.ofLength (bound + levels + 1) + 1) / 2 = pairs := by omega
    have hfits : counts.total ≤ 2 ^ (bound + levels) :=
      htotal.trans (Nat.pow_le_pow_right (by omega) (by omega))
    obtain ⟨next, hnext, hraised, hexact⟩ := h.raisePairs_eq (by omega) hsize hfits hpairs
    have hshorter : counts.ofLength (bound + levels) + pairs ≤ next.ofLength (bound + levels) :=
      hraised.add_le_ofLength
    have hgone := hraised.ofLength_add
    obtain ⟨limited, hlimited, hleft, hlevels⟩ := ih ((hraised.isFull h).pred (by omega))
      (by rw [hraised.size_eq]; omega) (by rw [hraised.total_eq]; exact htotal) (by omega)
    refine ⟨limited, ?_, ⟨hleft.isFull, hleft.total_eq.trans hraised.total_eq, hleft.reaches⟩, ?_⟩
    · simp only [raiseLevels, hhalf]
      rw [hnext, Option.bind_some, hlimited]
    · simp only [RaisesLevels, hhalf]
      refine ⟨hexact, fun other hother ↦ ?_⟩
      rw [hnext, Option.some.injEq] at hother
      exact hother ▸ hlevels

theorem ofLength_take (counts : LengthCounts) (size length : ℕ) :
    ofLength (counts.take size) length = if length < size then counts.ofLength length else 0 := by
  simp only [ofLength, List.getD_eq_getElem?_getD, List.getElem?_take]
  split <;> rfl

/-- Counts of lengths that no codeword has can be cut off. -/
theorem Limited.take {bound : ℕ} {counts limited : LengthCounts}
    (h : Limited bound counts limited) :
    Limited bound counts (limited.take (bound + 1)) := by
  have hsame (length : ℕ) :
      ofLength (limited.take (bound + 1)) length = limited.ofLength length := by
    rw [ofLength_take]
    split_ifs with hlength
    · rfl
    · exact (h.isFull.none_longer length (by omega)).symm
  have hnone (length : ℕ) (hlength : bound + 1 ≤ length) : limited.ofLength length = 0 :=
    h.isFull.none_longer length hlength
  have hsum (value : ℕ → ℚ) : sumOf (limited.take (bound + 1)) value = limited.sumOf value := by
    rw [sumOf_eq_sum_range limited (bound + 1) hnone,
      sumOf_eq_sum_range _ (bound + 1) fun length hlength ↦ by rw [hsame, hnone length hlength]]
    simp only [hsame]
  refine ⟨⟨?_, fun length hlength ↦ ?_⟩, ?_, ?_⟩
  · rw [hsum, h.isFull.kraft_eq_one]
  · rw [hsame, hnone length hlength]
  · rw [← h.total_eq]
    have := (total_eq_sumOf (limited.take (bound + 1))).trans (hsum fun _ ↦ 1)
    rw [← total_eq_sumOf] at this
    exact_mod_cast this
  · rw [hsame]
    exact h.reaches

/-- Full counts can be brought within a bound that leaves enough codewords. -/
theorem IsFull.limit_eq_ok {counts : LengthCounts} {deepest bound : ℕ} (h : counts.IsFull deepest)
    (hsize : counts.length = deepest + 1) (hused : 0 < counts.ofLength deepest)
    (hbound : 1 ≤ bound) (hdeep : bound ≤ deepest) (htotal : counts.total ≤ 2 ^ bound) :
    ∃ limited, counts.limit bound = .ok limited ∧ Limited bound counts limited ∧
      RaisesLevels bound (counts.length - 1 - bound) counts := by
  obtain ⟨levels, rfl⟩ := Nat.exists_eq_add_of_le hdeep
  have hlevels : counts.length - 1 - bound = levels := by omega
  obtain ⟨limited, hlimited, hleft, hexact⟩ :=
    h.raiseLevels_eq hbound (by omega) htotal hused
  refine ⟨limited.take (bound + 1), ?_, hleft.take, hlevels ▸ hexact⟩
  rw [limit, hlevels, hlimited]

/-! ### The lengths that are counted -/

theorem lengths_cons (count : ℕ) (counts : LengthCounts) :
    lengths (count :: counts) =
      (counts.zipIdx 1).flatMap fun (count, length) ↦ List.replicate count length := rfl

theorem sum_map_zipIdx (counts : LengthCounts) (start : ℕ) (value : ℕ → ℚ) :
    (((counts.zipIdx start).flatMap fun (count, length) ↦ List.replicate count length).map
      value).sum = counts.sumOf fun length ↦ value (length + start) := by
  induction counts generalizing start with
  | nil => simp [sumOf]
  | cons count counts ih =>
    rw [List.zipIdx_cons, List.flatMap_cons, List.map_append, List.sum_append, ih, sumOf_cons]
    simp [Nat.add_assoc, Nat.add_comm 1]

/-- If the empty codeword is not counted, a sum over the lengths is one over all codewords. -/
theorem sum_map_lengths {counts : LengthCounts} (hzero : counts.ofLength 0 = 0) (value : ℕ → ℚ) :
    (counts.lengths.map value).sum = counts.sumOf value := by
  cases counts with
  | nil => simp [lengths, sumOf]
  | cons count counts =>
    have hcount : count = 0 := hzero
    rw [lengths_cons, sum_map_zipIdx, sumOf_cons, hcount]
    simp

/-- The lengths are in order. -/
theorem pairwise_lengths (counts : LengthCounts) : counts.lengths.Pairwise (· ≤ ·) := by
  cases counts with
  | nil => exact List.Pairwise.nil
  | cons count counts =>
    rw [lengths_cons]
    generalize 1 = start
    induction counts generalizing start with
    | nil => exact List.Pairwise.nil
    | cons count counts ih =>
      rw [List.zipIdx_cons, List.flatMap_cons, List.pairwise_append]
      refine ⟨List.pairwise_replicate.mpr (Or.inr le_rfl), ih (start + 1), ?_⟩
      intro first hfirst second hsecond
      obtain ⟨entry, hentry, hlength⟩ := List.mem_flatMap.mp hsecond
      have hstart := (List.mk_mem_zipIdx_iff_le_and_getElem?_sub.mp hentry).1
      rw [List.eq_of_mem_replicate hfirst, List.eq_of_mem_replicate hlength]
      omega

/-- The lengths are those that some codeword has, without the empty one. -/
theorem mem_lengths {counts : LengthCounts} {length : ℕ} :
    length ∈ counts.lengths ↔ 1 ≤ length ∧ 0 < counts.ofLength length := by
  cases counts with
  | nil => simp [lengths, ofLength]
  | cons count counts =>
    rw [lengths_cons, List.mem_flatMap]
    constructor
    · rintro ⟨⟨count, place⟩, hentry, hlength⟩
      obtain ⟨hpos, rfl⟩ := List.mem_replicate.mp hlength
      obtain ⟨hlow, hget⟩ := List.mk_mem_zipIdx_iff_le_and_getElem?_sub.mp hentry
      obtain ⟨below, rfl⟩ := Nat.exists_eq_add_of_le' hlow
      refine ⟨hlow, ?_⟩
      simp only [Nat.add_sub_cancel] at hget
      simp only [ofLength, List.getD_eq_getElem?_getD, List.getElem?_cons_succ, hget,
        Option.getD_some]
      exact Nat.pos_of_ne_zero hpos
    · rintro ⟨hlow, hpos⟩
      obtain ⟨below, rfl⟩ := Nat.exists_eq_add_of_le' hlow
      refine ⟨⟨ofLength counts below, below + 1⟩, ?_, List.mem_replicate.mpr ⟨hpos.ne', rfl⟩⟩
      rw [List.mk_mem_zipIdx_iff_le_and_getElem?_sub, Nat.add_sub_cancel]
      have hinside : below < counts.length := by
        by_contra hout
        have := ofLength_eq_zero (Nat.le_of_not_lt hout)
        exact absurd this hpos.ne'
      exact ⟨hlow, by simp [ofLength, List.getD_eq_getElem?_getD, hinside]⟩

end HuffmanCoding.LengthCounts
