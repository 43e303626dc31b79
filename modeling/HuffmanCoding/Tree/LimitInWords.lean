import HuffmanCoding.Tree.LengthLimit

/-!
# Keeping lengths within a bound, in words

Where counts are kept in words, the run that takes away the codewords above a bound is a loop: as
long as a count is not zero, two are subtracted from it, and only the loop itself tells that it was
not one. A number that falls below zero or outgrows its word has no outcome here, and neither has a
loop that would not end.
-/

set_option autoImplicit false
set_option relaxedAutoImplicit false

namespace HuffmanCoding.LengthCounts

/-- The counts with some codewords of a length less, if there are as many. -/
def takeOff (counts : LengthCounts) (length amount : Nat) : Option LengthCounts :=
  if length < counts.length ∧ amount ≤ counts.ofLength length then
    some (counts.modify length (· - amount))
  else none

/-- The counts with some codewords of a length more, if the count stays below `size`. -/
def addOn (size : Nat) (counts : LengthCounts) (length amount : Nat) : Option LengthCounts :=
  if length < counts.length ∧ counts.ofLength length + amount < size then
    some (counts.modify length (· + amount))
  else none

/-- Takes two codewords of a length away, where numbers are kept in words of `size` values. There is
no outcome if a number would leave its range. -/
def raisePairInWords (size bound length : Nat) (counts : LengthCounts) :
    Option (Except Error LengthCounts) :=
  let shorter := counts.longestUpTo (length - 2)
  if length < 2 then none
  else if shorter = 0 then
    if counts.total < size ∧ 1 <<< bound < size then
      some (.error (.alphabetTooLarge counts.total (1 <<< bound)))
    else none
  else do
    let counts ← counts.takeOff length 2
    let counts ← counts.addOn size (length - 1) 1
    let counts ← counts.addOn size (shorter + 1) 2
    let counts ← counts.takeOff shorter 1
    return .ok counts

theorem takeOff_eq_some_iff {counts next : LengthCounts} {length amount : Nat} :
    counts.takeOff length amount = some next ↔
      (length < counts.length ∧ amount ≤ counts.ofLength length) ∧
        counts.modify length (· - amount) = next := by
  rw [takeOff, Option.ite_none_right_eq_some, Option.some.injEq]

theorem addOn_eq_some_iff {size : Nat} {counts next : LengthCounts} {length amount : Nat} :
    counts.addOn size length amount = some next ↔
      (length < counts.length ∧ counts.ofLength length + amount < size) ∧
        counts.modify length (· + amount) = next := by
  rw [addOn, Option.ite_none_right_eq_some, Option.some.injEq]

/-- Every step takes codewords away. -/
theorem ofLength_lt_of_raisePairInWords {size bound length : Nat} {counts next : LengthCounts}
    (h : counts.raisePairInWords size bound length = some (.ok next)) :
    next.ofLength length < counts.ofLength length := by
  have hshorter := counts.longestUpTo_le (length - 2)
  rw [raisePairInWords] at h
  split at h
  · cases h
  · split at h
    · split at h <;> cases h
    · simp only [Option.bind_eq_bind, Option.bind_eq_some_iff, takeOff_eq_some_iff,
        addOn_eq_some_iff] at h
      obtain ⟨_, ⟨⟨hsize, htwo⟩, rfl⟩, _, ⟨_, rfl⟩, _, ⟨_, rfl⟩, last, ⟨_, rfl⟩, heq⟩ := h
      cases heq
      rw [ofLength_modify_of_ne _ (by omega), ofLength_modify_of_ne _ (by omega),
        ofLength_modify_of_ne _ (by omega), ofLength_modify hsize, if_pos rfl]
      omega

/-- Takes codewords of one length away, two at a time, as long as there is one. -/
def raiseAllInWords (size bound length : Nat) (counts : LengthCounts) :
    Option (Except Error LengthCounts) :=
  if counts.ofLength length = 0 then some (.ok counts)
  else
    match _ : counts.raisePairInWords size bound length with
    | some (.ok next) => raiseAllInWords size bound length next
    | stopped => stopped
termination_by counts.ofLength length
decreasing_by exact ofLength_lt_of_raisePairInWords ‹_›

/-- Takes the codewords of the `levels` lengths above the bound away, the longest ones first. -/
def raiseLevelsInWords (size bound : Nat) :
    (levels : Nat) → LengthCounts → Option (Except Error LengthCounts)
  | 0, counts => some (.ok counts)
  | levels + 1, counts =>
    match counts.raiseAllInWords size bound (bound + levels + 1) with
    | some (.ok next) => raiseLevelsInWords size bound levels next
    | stopped => stopped

/-- The counts of as many codewords, none longer than the bound, where numbers are kept in words of
`size` values. -/
def limitInWords (size bound : Nat) (counts : LengthCounts) :
    Option (Except Error LengthCounts) :=
  if counts.length = 0 then none
  else
    (counts.raiseLevelsInWords size bound (counts.length - 1 - bound)).map fun outcome ↦
      outcome.map (·.take (bound + 1))

end HuffmanCoding.LengthCounts
