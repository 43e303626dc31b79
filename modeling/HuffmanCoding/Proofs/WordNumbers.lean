import HuffmanCoding.Bits.Words
import HuffmanCoding.Proofs.BitPlaces
import Mathlib.Algebra.BigOperators.Group.Finset.Basic
import Mathlib.Data.Nat.Bitwise

/-!
# Numbers taken up by words

When a group of a number is joined to a word, nothing is lost (`toNat_takeUp`), and the word is the
number that is read without a bound (`run_groupsFrom`). So a number is read exactly if there are
groups for it, at most ten of them, that add up to less than 2^64 (`ByteReader.SpellsNumber`). In
any other case the reader stops at a group that is cut off or too large, which is the eleventh at
the latest (`ByteReader.RefusesNumber`, `ByteReading.wordNumber_isExact`).
-/

set_option autoImplicit false
set_option relaxedAutoImplicit false

namespace HuffmanCoding

/-! ### Groups in place -/

/-- Digits that are added above others take up seven places more. -/
theorem add_group_lt {count low digits : ℕ} (hlow : low < 2 ^ (7 * count))
    (hdigits : digits < 128) : low + digits <<< (7 * count) < 2 ^ (7 * (count + 1)) := by
  calc low + digits <<< (7 * count)
      < 2 ^ (7 * count) + digits * 2 ^ (7 * count) := by
        rw [Nat.shiftLeft_eq]
        exact Nat.add_lt_add_right hlow _
    _ = (digits + 1) * 2 ^ (7 * count) := by rw [Nat.add_mul, Nat.one_mul, Nat.add_comm]
    _ ≤ 2 ^ 7 * 2 ^ (7 * count) := Nat.mul_le_mul_right _ hdigits
    _ = 2 ^ (7 * (count + 1)) := by rw [← Nat.pow_add, Nat.mul_succ, Nat.add_comm]

namespace ByteReader

variable (reader : ByteReader)

/-- The group of eight bits that comes after `index` others. -/
def group (index : ℕ) : ℕ :=
  reader.numberAt (reader.position + 8 * index) 8

/-- What the first `count` groups add up to, if the mark of each of them is left out. -/
def payload (count : ℕ) : ℕ :=
  ∑ index ∈ Finset.range count, reader.group index % 128 * 2 ^ (7 * index)

/-- The next `count` groups spell a number that fits into a word. -/
structure SpellsNumber (count : ℕ) : Prop where
  count_pos : 1 ≤ count
  count_le : count ≤ 10
  room : 8 * count ≤ reader.remaining
  marked : ∀ index, index + 1 < count → 128 ≤ reader.group index
  last : reader.group (count - 1) < 128
  payload_lt : reader.payload count < UInt64.size

/-- The reader stops behind `count` groups that are marked and fit into a word. Either the next
group is cut off by the recorded end, or it is the eleventh one or too large. -/
structure RefusesNumber (count : ℕ) (error : Error) (left : ByteReader) : Prop where
  count_le : count ≤ 10
  marked : ∀ index < count, 128 ≤ reader.group index
  payload_lt : reader.payload count < UInt64.size
  cut_or_large :
    reader.remaining < 8 * (count + 1) ∧
        error = .malformed (.fieldPastEnd 8) (reader.position + 8 * count) ∧
        left.IsPast reader (8 * count) ∨
      8 * (count + 1) ≤ reader.remaining ∧
        (count = 10 ∨ UInt64.size ≤ reader.payload (count + 1)) ∧
        error = .malformed .numberTooLarge reader.position ∧
        left.IsPast reader (8 * (count + 1))

variable {reader}

@[simp] theorem payload_zero : reader.payload 0 = 0 := rfl

theorem payload_succ (count : ℕ) : reader.payload (count + 1) =
    reader.payload count + (reader.group count % 128) <<< (7 * count) := by
  rw [payload, Finset.sum_range_succ, Nat.shiftLeft_eq]
  rfl

theorem payload_mono {count more : ℕ} (h : count ≤ more) :
    reader.payload count ≤ reader.payload more := by
  induction more, h using Nat.le_induction with
  | base => exact le_rfl
  | succ more _ ih =>
    rw [payload_succ]
    exact ih.trans (Nat.le_add_right _ _)

/-- The groups of a number end at the first one that is not marked. -/
theorem SpellsNumber.unique {count other : ℕ} (h : reader.SpellsNumber count)
    (hother : reader.SpellsNumber other) : count = other := by
  have hcount := h.count_pos
  have hcountOther := hother.count_pos
  by_contra hne
  rcases Nat.lt_or_gt_of_ne hne with hless | hless
  · have hmarked := hother.marked (count - 1) (by omega)
    exact absurd h.last (Nat.not_lt_of_le hmarked)
  · have hmarked := h.marked (other - 1) (by omega)
    exact absurd hother.last (Nat.not_lt_of_le hmarked)

/-- Where a number is spelled, the reader does not stop on the way. -/
theorem SpellsNumber.not_refusesNumber {count stop : ℕ} {error : Error} {left : ByteReader}
    (h : reader.SpellsNumber count) : ¬ reader.RefusesNumber stop error left := by
  intro hrefuses
  have hcount := h.count_pos
  have hroom := h.room
  have hle := h.count_le
  rcases Nat.lt_or_ge stop count with hbefore | hbehind
  · rcases hrefuses.cut_or_large with ⟨hcut, _⟩ | ⟨_, hlast | hlarge, _⟩
    · omega
    · omega
    · have hmono : reader.payload (stop + 1) ≤ reader.payload count :=
        payload_mono (Nat.succ_le_of_lt hbefore)
      exact absurd h.payload_lt (Nat.not_lt_of_le (hlarge.trans hmono))
  · have hmarked := hrefuses.marked (count - 1) (by omega)
    exact absurd h.last (Nat.not_lt_of_le hmarked)

end ByteReader

/-! ### Words that take up groups -/

namespace ByteReading

open Reading

theorem toNat_digits (group : ℕ) : (UInt64.ofNat group &&& 0x7F).toNat = group % 128 := by
  have hmask : (0x7F : UInt64).toNat = 2 ^ 7 - 1 := rfl
  rw [UInt64.toNat_and, UInt64.toNat_ofNat', hmask, Nat.and_two_pow_sub_one_eq_mod,
    Nat.mod_mod_of_dvd _ (by decide)]

theorem mark_eq_zero_iff {group : ℕ} (h : group < 256) :
    UInt64.ofNat group &&& 0x80 = 0 ↔ group < 128 := by
  have hmask : (0x80 : UInt64).toNat = 2 ^ 7 := rfl
  have hsmall : group < UInt64.size := h.trans (by decide)
  have hmark : group.testBit 7 = true ↔ ¬ group < 128 := by
    rw [Nat.testBit_eq_decide_div_mod_eq, decide_eq_true_iff]
    omega
  rw [← UInt64.toNat_inj, UInt64.toNat_and, UInt64.toNat_ofNat_of_lt' hsmall, hmask,
    Nat.and_two_pow, ← not_iff_not, ← hmark]
  cases group.testBit 7 <;> simp

/-- Digits that are joined to a word add to it, as long as no digit is shifted out. -/
theorem toNat_takeUp {word digits : UInt64} {shift : ℕ} (hshift : shift < 64)
    (hword : word.toNat < 2 ^ shift)
    (hroom : word.toNat + digits.toNat <<< shift < UInt64.size) :
    (word ||| digits <<< UInt64.ofNat shift).toNat = word.toNat + digits.toNat <<< shift := by
  have hplace : (UInt64.ofNat shift).toNat % 64 = shift := by
    rw [UInt64.toNat_ofNat_of_lt' (hshift.trans (by decide)), Nat.mod_eq_of_lt hshift]
  have hkept : digits.toNat <<< shift < 2 ^ 64 := (Nat.le_add_left _ _).trans_lt hroom
  rw [UInt64.toNat_or, UInt64.toNat_shiftLeft, hplace, Nat.mod_eq_of_lt hkept, Nat.or_comm,
    ← Nat.shiftLeft_add_eq_or_of_lt hword, Nat.add_comm]

/-- The two conditions under which a group is refused are that there is no room for it. Nine groups
always have room, and with the tenth one the word is full. -/
theorem hasNoRoom_iff {count low digits : ℕ} (hcount : count ≤ 9) (hlow : low < 2 ^ (7 * count))
    (hdigits : digits < 128) : (64 ≤ 7 * count ∨ 7 * count = 63 ∧ 1 < digits) ↔
      UInt64.size ≤ low + digits <<< (7 * count) := by
  rcases Nat.lt_or_eq_of_le hcount with hless | rfl
  · have hroom : low + digits <<< (7 * count) < UInt64.size := by
      calc low + digits <<< (7 * count)
          < 2 ^ (7 * (count + 1)) := add_group_lt hlow hdigits
        _ ≤ 2 ^ 63 := Nat.pow_le_pow_right (by decide) (by omega)
        _ < UInt64.size := by decide
    constructor <;> intro hnone <;> omega
  · rw [Nat.shiftLeft_eq]
    show (64 ≤ 63 ∨ (63 : ℕ) = 63 ∧ 1 < digits) ↔ 18446744073709551616 ≤ low + digits * 2 ^ 63
    omega

/-- The group behind `count` others is refused exactly if there is no room for its digits. -/
theorem refuses_group_iff {count group : ℕ} {word : UInt64} (hcount : count ≤ 9)
    (hword : word.toNat < 2 ^ (7 * count)) :
    (64 ≤ 7 * count ∨ 7 * count = 63 ∧ 1 < UInt64.ofNat group &&& 0x7F) ↔
      UInt64.size ≤ word.toNat + (group % 128) <<< (7 * count) := by
  have hone : 1 < UInt64.ofNat group &&& 0x7F ↔ 1 < group % 128 := by
    rw [UInt64.lt_iff_toNat_lt, toNat_digits]
    rfl
  rw [hone]
  exact hasNoRoom_iff hcount hword (Nat.mod_lt group (by decide))

/-- The group behind `count` others adds its digits to the word if there is room for them. -/
theorem toNat_takeUp_group {count group : ℕ} {word : UInt64} (hcount : count ≤ 9)
    (hword : word.toNat < 2 ^ (7 * count))
    (hroom : word.toNat + (group % 128) <<< (7 * count) < UInt64.size) :
    (word ||| (UInt64.ofNat group &&& 0x7F) <<< UInt64.ofNat (7 * count)).toNat =
      word.toNat + (group % 128) <<< (7 * count) := by
  rw [toNat_takeUp (by omega) hword (by rwa [toNat_digits]), toNat_digits]

/-! ### The loop over the groups -/

/-- A field that is read is as small as its width demands. -/
theorem lt_of_run_bits {width field : ℕ} {reader left : ByteReader} (h : width ≤ 32)
    (hrun : (bits width : ByteReading ℕ).run reader = .ok field left) : field < 2 ^ width := by
  have hfield : field = reader.peek width := by
    have hsame := ByteReader.isView_cursor.bits h reader
    rw [hrun, Reading.run_bits] at hsame
    split_ifs at hsame with hshort
    · cases hsame
    · rw [reader.peek_eq h]
      exact (EStateM.Result.ok.inj hsame).1
  rw [hfield, reader.peek_eq_numberAt h]
  exact reader.numberAt_lt _ _

/-- Behind `count` groups the word takes up what is read without a bound. -/
theorem run_groupsFrom {count allowed : ℕ} (hgroups : count + allowed = 10) (start : ℕ)
    {word : UInt64} (hword : word.toNat < 2 ^ (7 * count)) (reader : ByteReader) :
    (groupsFrom start (7 * count) word).run reader =
      (do return UInt64.ofNat (← numberFrom start allowed (7 * count) word.toNat) :
        ByteReading UInt64).run reader := by
  induction allowed generalizing count word reader with
  | zero =>
    obtain rfl : count = 10 := hgroups
    rw [groupsFrom, numberFrom, EStateM.run_bind, EStateM.run_bind, EStateM.run_bind]
    cases (bits 8 : ByteReading ℕ).run reader with
    | error error left => rfl
    | ok group left =>
      dsimp only
      rw [dif_pos (Or.inl (by decide))]
      rfl
  | succ allowed ih =>
    rw [groupsFrom, numberFrom, EStateM.run_bind, EStateM.run_bind, EStateM.run_bind]
    cases hgroup : (bits 8 : ByteReading ℕ).run reader with
    | error error left => rfl
    | ok group left =>
      have hbyte : group < 256 := lt_of_run_bits (by decide) hgroup
      have hcount : count ≤ 9 := by omega
      dsimp only
      by_cases hlarge : UInt64.size ≤ word.toNat + (group % 128) <<< (7 * count)
      · rw [if_pos hlarge, dif_pos ((refuses_group_iff hcount hword).mpr hlarge)]
        rfl
      · have hnext := toNat_takeUp_group hcount hword (Nat.lt_of_not_le hlarge)
        rw [if_neg hlarge, dif_neg (mt (refuses_group_iff hcount hword).mp hlarge)]
        by_cases hlast : group < 128
        · rw [if_pos hlast, if_pos ((mark_eq_zero_iff hbyte).mpr hlast), ← hnext]
          show EStateM.Result.ok _ left = EStateM.Result.ok (UInt64.ofNat _) left
          rw [UInt64.ofNat_toNat]
        · have hsmall :
              (word ||| (UInt64.ofNat group &&& 0x7F) <<< UInt64.ofNat (7 * count)).toNat <
                2 ^ (7 * (count + 1)) := by
            rw [hnext]
            exact add_group_lt hword (Nat.mod_lt _ (by decide))
          rw [if_neg hlast, if_neg (mt (mark_eq_zero_iff hbyte).mp hlast), ← hnext]
          exact ih (by omega) hsmall left

/-- The group that comes next is read if it lies in front of the recorded end. -/
theorem run_bits_group {reader here : ByteReader} {count : ℕ}
    (hhere : here.IsPast reader (8 * count)) (hroom : 8 * (count + 1) ≤ reader.remaining) :
    ∃ left, (bits 8 : ByteReading ℕ).run here = .ok (reader.group count) left ∧
      left.IsPast reader (8 * (count + 1)) := by
  have hle := reader.position_le
  have hfits : here.position + 8 ≤ here.bitLength := by
    rw [hhere.position_eq, hhere.bitLength_eq]
    unfold ByteReader.remaining at hroom
    omega
  refine ⟨here.advance 8 hfits, ?_, hhere.trans (ByteReader.isPast_advance hfits)⟩
  rw [run_bits hfits, here.peek_eq_numberAt (by decide), hhere.numberAt_eq, hhere.position_eq]
  rfl

/-- The group that comes next is refused if it goes on behind the recorded end. -/
theorem run_bits_cut {reader here : ByteReader} {count : ℕ} (hhere : here.IsPast reader (8 * count))
    (hcut : reader.remaining < 8 * (count + 1)) : (bits 8 : ByteReading ℕ).run here =
      .error (.malformed (.fieldPastEnd 8) (reader.position + 8 * count)) here := by
  have hshort : here.bitLength < here.position + 8 := by
    rw [hhere.position_eq, hhere.bitLength_eq]
    unfold ByteReader.remaining at hcut
    omega
  rw [run_bits_of_short hshort, hhere.position_eq]

/-- Behind `count` groups that are marked, the loop either ends with a number or stops. -/
theorem numberFrom_cases {reader : ByteReader} {count allowed : ℕ} (hgroups : count + allowed = 10)
    {here : ByteReader} (hhere : here.IsPast reader (8 * count))
    (hmarked : ∀ index < count, 128 ≤ reader.group index)
    (hpayload : reader.payload count < UInt64.size) :
    (∃ groups left, reader.SpellsNumber groups ∧ left.IsPast reader (8 * groups) ∧
      (numberFrom reader.position allowed (7 * count) (reader.payload count) : ByteReading ℕ).run
        here = .ok (reader.payload groups) left) ∨
    ∃ groups error left, reader.RefusesNumber groups error left ∧
      (numberFrom reader.position allowed (7 * count) (reader.payload count) : ByteReading ℕ).run
        here = .error error left := by
  induction allowed generalizing count here with
  | zero =>
    obtain rfl : count = 10 := hgroups
    rw [numberFrom, EStateM.run_bind]
    refine Or.inr ?_
    by_cases hcut : reader.remaining < 8 * (10 + 1)
    · rw [run_bits_cut hhere hcut]
      exact ⟨10, _, here, ⟨le_rfl, hmarked, hpayload, Or.inl ⟨hcut, rfl, hhere⟩⟩, rfl⟩
    · have hroom := Nat.le_of_not_lt hcut
      obtain ⟨left, hgroup, hleft⟩ := run_bits_group hhere hroom
      rw [hgroup]
      exact ⟨10, _, left,
        ⟨le_rfl, hmarked, hpayload, Or.inr ⟨hroom, Or.inl rfl, rfl, hleft⟩⟩, rfl⟩
  | succ allowed ih =>
    rw [numberFrom, EStateM.run_bind]
    by_cases hcut : reader.remaining < 8 * (count + 1)
    · rw [run_bits_cut hhere hcut]
      exact Or.inr ⟨count, _, here,
        ⟨by omega, hmarked, hpayload, Or.inl ⟨hcut, rfl, hhere⟩⟩, rfl⟩
    · have hroom := Nat.le_of_not_lt hcut
      obtain ⟨left, hgroup, hleft⟩ := run_bits_group hhere hroom
      rw [hgroup]
      dsimp only
      rw [← ByteReader.payload_succ]
      by_cases hlarge : UInt64.size ≤ reader.payload (count + 1)
      · rw [if_pos hlarge]
        exact Or.inr ⟨count, _, left,
          ⟨by omega, hmarked, hpayload, Or.inr ⟨hroom, Or.inr hlarge, rfl, hleft⟩⟩, rfl⟩
      · have hsmall := Nat.lt_of_not_le hlarge
        rw [if_neg hlarge]
        by_cases hlast : reader.group count < 128
        · rw [if_pos hlast]
          refine Or.inl
            ⟨count + 1, left, ⟨by omega, by omega, hroom, ?_, hlast, hsmall⟩, hleft, rfl⟩
          exact fun index hindex ↦ hmarked index (by omega)
        · rw [if_neg hlast]
          refine ih (by omega) hleft (fun index hindex ↦ ?_) hsmall
          rcases Nat.lt_succ_iff_lt_or_eq.mp hindex with hbefore | rfl
          · exact hmarked index hbefore
          · exact Nat.le_of_not_lt hlast

/-- A number begins where the reader stands, with all of its groups to come. -/
theorem run_number (reader : ByteReader) :
    (number : ByteReading ℕ).run reader =
      (numberFrom reader.position 10 0 0 : ByteReading ℕ).run reader := by
  rw [number, EStateM.run_bind]
  rfl

/-- A number is read into a word as it is read without a bound. -/
theorem run_wordNumber (reader : ByteReader) : wordNumber.run reader =
    (do return UInt64.ofNat (← number) : ByteReading UInt64).run reader := by
  have hzero : (0 : UInt64).toNat < 2 ^ (7 * 0) := Nat.one_pos
  have hloop := run_groupsFrom (Nat.zero_add 10) reader.position hzero reader
  rw [Nat.mul_zero, UInt64.toNat_zero, EStateM.run_bind, ← run_number] at hloop
  rw [EStateM.run_bind, ← hloop, wordNumber, EStateM.run_bind]
  rfl

/-- A number that is read into a word is the one that a cursor reads without a bound. -/
theorem bytewise_wordNumber :
    wordNumber.Bytewise (do return UInt64.ofNat (← number)) := by
  intro reader
  rw [run_wordNumber]
  exact ByteReader.isView_cursor.number.bind (fun _ ↦ .pure _) reader

/-- A number that is read is spelled by groups, or the reader stops at a group. -/
theorem number_cases (reader : ByteReader) :
    (∃ groups left, reader.SpellsNumber groups ∧ left.IsPast reader (8 * groups) ∧
      (number : ByteReading ℕ).run reader = .ok (reader.payload groups) left) ∨
    ∃ groups error left, reader.RefusesNumber groups error left ∧
      (number : ByteReading ℕ).run reader = .error error left := by
  have hnone : reader.payload 0 = 0 := ByteReader.payload_zero
  have hstart : reader.IsPast reader (8 * 0) := ByteReader.isPast_zero
  have hcases := numberFrom_cases (Nat.zero_add 10) hstart
    (fun index hindex ↦ absurd hindex (Nat.not_lt_zero index)) (by rw [hnone]; decide)
  rwa [hnone, Nat.mul_zero, ← run_number] at hcases

/-- So is a number that is read into a word. -/
theorem wordNumber_cases (reader : ByteReader) :
    (∃ groups left, reader.SpellsNumber groups ∧ left.IsPast reader (8 * groups) ∧
      wordNumber.run reader = .ok (UInt64.ofNat (reader.payload groups)) left) ∨
    ∃ groups error left, reader.RefusesNumber groups error left ∧
      wordNumber.run reader = .error error left := by
  rw [run_wordNumber, EStateM.run_bind]
  rcases number_cases reader with ⟨groups, left, hspells, hleft, hrun⟩ |
    ⟨groups, error, left, hrefuses, hrun⟩
  · rw [hrun]
    exact Or.inl ⟨groups, left, hspells, hleft, rfl⟩
  · rw [hrun]
    exact Or.inr ⟨groups, error, left, hrefuses, rfl⟩

/-- From any place a number is read into a word exactly if the next groups spell one, and then the
word is what they add up to and the reader stands behind them. In any other case the reader stops
with a fault of the stream at one of the first eleven groups. What is read is the number that a
cursor at this place reads without a bound. -/
theorem wordNumber_isExact (reader : ByteReader) :
    (∀ value left, wordNumber.run reader = .ok value left ↔
      ∃ count, reader.SpellsNumber count ∧ value.toNat = reader.payload count ∧
        left.IsPast reader (8 * count)) ∧
    ((¬ ∃ count, reader.SpellsNumber count) →
      ∃ count error left, reader.RefusesNumber count error left ∧
        wordNumber.run reader = .error error left) ∧
    seenThrough ByteReader.cursor (wordNumber.run reader) =
      (do return UInt64.ofNat (← number) : Reading UInt64).run reader.cursor := by
  refine ⟨fun value left ↦ ⟨fun hrun ↦ ?_, ?_⟩, fun hnone ↦ ?_, bytewise_wordNumber reader⟩
  · rcases wordNumber_cases reader with ⟨count, other, hspells, hother, hresult⟩ |
      ⟨_, _, _, _, hresult⟩
    · rw [hresult] at hrun
      cases hrun
      exact ⟨count, hspells, UInt64.toNat_ofNat_of_lt' hspells.payload_lt, hother⟩
    · rw [hresult] at hrun
      cases hrun
  · rintro ⟨count, hspells, hvalue, hleft⟩
    rcases wordNumber_cases reader with ⟨other, found, hother, hfound, hresult⟩ |
      ⟨_, _, _, hrefuses, _⟩
    · obtain rfl := hspells.unique hother
      rw [hresult, hleft.unique hfound, ← hvalue, UInt64.ofNat_toNat]
    · exact absurd hrefuses hspells.not_refusesNumber
  · rcases wordNumber_cases reader with ⟨count, _, hspells, _⟩ | hrefuses
    · exact absurd ⟨count, hspells⟩ hnone
    · exact hrefuses

/-- The greatest number takes up ten groups, the last of them with a single digit. With the next
digit set there is no room for it. -/
theorem wordNumber_isExact_of_ten_groups :
    ∃ full excess : ByteReader,
      (full.bytes = List.replicate 9 0xFF ++ [0x01] ∧ full.bitLength = 80 ∧ full.position = 0 ∧
        ∃ left, wordNumber.run full = .ok 0xFFFFFFFFFFFFFFFF left ∧ left.position = 80) ∧
      excess.bytes = List.replicate 9 0xFF ++ [0x02] ∧ excess.bitLength = 80 ∧ excess.position = 0 ∧
        ∃ left, wordNumber.run excess = .error (.malformed .numberTooLarge 0) left := by
  let full : ByteReader :=
    ⟨List.replicate 9 0xFF ++ [0x01], 80, 0, by decide, by decide⟩
  let excess : ByteReader :=
    ⟨List.replicate 9 0xFF ++ [0x02], 80, 0, by decide, by decide⟩
  have hmarked : ∀ index < 9, 128 ≤ full.group index := by decide
  have hmarkedExcess : ∀ index < 9, 128 ≤ excess.group index := by decide
  have hspells : full.SpellsNumber 10 :=
    ⟨by decide, le_rfl, by decide, fun index h ↦ hmarked index (by omega), by decide,
      by decide +kernel⟩
  have hnone : ¬ ∃ count, excess.SpellsNumber count := by
    rintro ⟨count, hcount⟩
    have hlast := hcount.last
    have hle := hcount.count_le
    rcases Nat.lt_or_ge (count - 1) 9 with hbefore | hbehind
    · exact absurd hlast (Nat.not_lt_of_le (hmarkedExcess _ hbefore))
    · obtain rfl : count = 10 := by omega
      exact absurd hcount.payload_lt (by decide +kernel)
  have hroom : full.position + 8 * 10 ≤ full.bitLength := by decide
  obtain ⟨count, error, left, hrefuses, hrun⟩ := (wordNumber_isExact excess).2.1 hnone
  refine ⟨full, excess, ⟨rfl, rfl, rfl, full.advance (8 * 10) hroom, ?_, rfl⟩, rfl, rfl, rfl,
    left, ?_⟩
  · exact ((wordNumber_isExact full).1 _ _).mpr
      ⟨10, hspells, by decide +kernel, ByteReader.isPast_advance hroom⟩
  · rcases hrefuses.cut_or_large with ⟨hcut, _⟩ | ⟨_, _, rfl, _⟩
    · have hcount : 9 < count := by
        have hremaining : excess.remaining = 80 := rfl
        omega
      exact absurd (hrefuses.marked 9 hcount) (by decide)
    · exact hrun

end ByteReading

end HuffmanCoding
