import HuffmanCoding.Bits.Cursor
import HuffmanCoding.Proofs.Grammar
import Mathlib.Tactic.Ring

/-!
# Readers that give values back

A reader gives a value for some bits if it yields the value and passes exactly these bits wherever
they come next, whatever stands before and behind them (`Reading.Gives`). Readers of this kind can
be put one after the other (`Gives.bind`), which carries the statement from the fields of fixed
width (`gives_bits`, `gives_bytes`) over numbers of variable size (`gives_number`) to sequences of
items (`gives_items`).
-/

set_option autoImplicit false
set_option relaxedAutoImplicit false

namespace HuffmanCoding

/-! ### Moving on -/

namespace BitCursor

theorem drop_zero (cursor : BitCursor) : cursor.drop 0 = cursor := by
  obtain ⟨upcoming, position, remaining, hremaining⟩ := cursor
  simp [drop]

/-- Moving on twice is moving on by the sum. -/
theorem drop_drop (cursor : BitCursor) (first second : ℕ) :
    (cursor.drop first).drop second = cursor.drop (first + second) := by
  obtain ⟨upcoming, position, remaining, hremaining⟩ := cursor
  simp only [drop, List.drop_drop, BitCursor.mk.injEq, true_and]
  omega

/-- The bits to come number at least those that are known. -/
theorem le_remaining {cursor : BitCursor} {bits rest : Bits}
    (h : cursor.upcoming = bits ++ rest) : bits.length ≤ cursor.remaining := by
  rw [cursor.remaining_eq, h, List.length_append]
  exact Nat.le_add_right _ _

/-- Behind some bits the rest is to come. -/
theorem upcoming_drop {cursor : BitCursor} {bits rest : Bits}
    (h : cursor.upcoming = bits ++ rest) : (cursor.drop bits.length).upcoming = rest := by
  show cursor.upcoming.drop bits.length = rest
  rw [h, List.drop_left]

end BitCursor

namespace Reading

variable {α β : Type}

/-- Wherever the bits come next, the reader yields the value and passes exactly the bits. -/
def Gives (read : Reading α) (bits : Bits) (value : α) : Prop :=
  ∀ (cursor : BitCursor) (rest : Bits), cursor.upcoming = bits ++ rest →
    read.run cursor = .ok value (cursor.drop bits.length)

/-- What is yielded is yielded together with a state that is left. -/
theorem outcome_eq_ok_iff {σ : Type} {read : EStateM Error σ α} {start : σ} {value : α} :
    outcome read start = .ok value ↔ ∃ left, read.run start = .ok value left := by
  unfold outcome
  cases read.run start <;> simp

/-! ### Composition -/

theorem gives_pure (value : α) : Gives (pure value) [] value := by
  intro cursor rest _
  rw [EStateM.run_pure, List.length_nil, BitCursor.drop_zero]

/-- Two readers one after the other give their values for the bits one after the other. -/
theorem Gives.bind {first : Reading α} {next : α → Reading β} {bits more : Bits} {value : α}
    {result : β} (hfirst : first.Gives bits value) (hnext : (next value).Gives more result) :
    (first >>= next).Gives (bits ++ more) result := by
  intro cursor rest hcursor
  rw [List.append_assoc] at hcursor
  have hmore := BitCursor.upcoming_drop hcursor
  rw [EStateM.run_bind, hfirst cursor _ hcursor]
  show (next value).run _ = _
  rw [hnext _ rest hmore, BitCursor.drop_drop, List.length_append]

/-- The last reader may pass nothing. -/
theorem Gives.finish {first : Reading α} {next : α → Reading β} {bits : Bits} {value : α}
    {result : β} (hfirst : first.Gives bits value) (hnext : (next value).Gives [] result) :
    (first >>= next).Gives bits result := by
  have hbind := hfirst.bind hnext
  rwa [List.append_nil] at hbind

/-- A reader may look at its position, which is not known. -/
theorem gives_of_position {next : ℕ → Reading β} {bits : Bits} {result : β}
    (h : ∀ start, (next start).Gives bits result) : (position >>= next).Gives bits result :=
  fun cursor rest hcursor ↦ h cursor.position cursor rest hcursor

/-- A reader may look at the number of bits left, which are at least those that it passes. -/
theorem gives_of_remaining {next : ℕ → Reading β} {bits : Bits} {result : β}
    (h : ∀ left, bits.length ≤ left → (next left).Gives bits result) :
    (remaining >>= next).Gives bits result :=
  fun cursor rest hcursor ↦
    h cursor.remaining (BitCursor.le_remaining hcursor) cursor rest hcursor

/-! ### Fields of fixed width -/

/-- A field is passed if it is there, and else the cursor stays. -/
theorem run_skip (width : ℕ) (cursor : BitCursor) : (skip width : Reading Unit).run cursor =
    if cursor.remaining < width then
      .error (.malformed (.fieldPastEnd width) cursor.position) cursor
    else .ok () (cursor.drop width) := by
  show (if cursor.remaining < width then fail (.fieldPastEnd width) cursor.position
    else set (cursor.drop width) : Reading Unit).run cursor = _
  split_ifs <;> rfl

/-- A field is passed whatever its bits are. -/
theorem gives_skip (field : Bits) : Gives (skip field.length) field () := by
  intro cursor rest hcursor
  rw [run_skip, if_neg (Nat.not_lt_of_le (BitCursor.le_remaining hcursor))]

/-- Reading a field yields what the cursor sees, or stops where it stands. -/
theorem run_bits (width : ℕ) (cursor : BitCursor) : (bits width : Reading ℕ).run cursor =
    if cursor.remaining < width then
      .error (.malformed (.fieldPastEnd width) cursor.position) cursor
    else .ok (cursor.peek width) (cursor.drop width) := by
  show (do skip width; return cursor.peek width : Reading ℕ).run cursor = _
  rw [EStateM.run_bind, run_skip]
  split_ifs <;> rfl

/-- A field is read as the number that its bits spell. -/
theorem gives_bits (field : Bits) : Gives (bits field.length) field (Bits.toNat field) := by
  intro cursor rest hcursor
  rw [run_bits, if_neg (Nat.not_lt_of_le (BitCursor.le_remaining hcursor)), BitCursor.peek, hcursor,
    Bits.fit_append rfl]

/-- A number that fits into a field is read back. -/
theorem gives_ofNat {width value : ℕ} (h : value < 2 ^ width) :
    Gives (bits width) (Bits.ofNat width value) value := by
  have hgives := gives_bits (Bits.ofNat width value)
  rwa [Bits.length_ofNat, Bits.toNat_ofNat, Nat.mod_eq_of_lt h] at hgives

theorem gives_eachByte (data : List UInt8) :
    Gives (eachByte data.length) (Bits.ofBytes data) data := by
  induction data with
  | nil => exact gives_pure []
  | cons byte data ih =>
    have hbyte : Gives (item (bits 8)) (Bits.ofByte byte) byte.toNat := gives_ofNat byte.toNat_lt
    refine hbyte.bind (ih.finish ?_)
    rw [UInt8.ofNat_toNat]
    exact gives_pure _

/-- Bytes are read back, if no more bits are asked for than they have. -/
theorem gives_bytesWithin {needed : ℕ} {data : List UInt8} (h : needed ≤ data.length * 8) :
    Gives (bytesWithin needed data.length) (Bits.ofBytes data) data := by
  refine gives_of_position fun start ↦ gives_of_remaining fun left hleft ↦ ?_
  rw [Bits.length_ofBytes] at hleft
  rw [if_neg (Nat.not_lt_of_le (h.trans hleft))]
  exact gives_eachByte data

theorem gives_bytes (data : List UInt8) : Gives (bytes data.length) (Bits.ofBytes data) data :=
  gives_bytesWithin le_rfl

/-! ### Numbers of variable size -/

/-- The groups of a number are read back behind groups with the value `low`, as long as the whole
number is below 2^64. -/
theorem gives_numberFrom (start : ℕ) {allowed digits low value : ℕ} {bits : Bits}
    (h : Numeral allowed bits value) (hsize : low + value <<< digits < UInt64.size) :
    Gives (numberFrom start allowed digits low) bits (low + value <<< digits) := by
  induction h generalizing digits low with
  | @last _ group hgroup =>
    refine (gives_ofNat (by omega)).finish ?_
    simp only [Nat.mod_eq_of_lt hgroup]
    rw [if_neg (Nat.not_le_of_lt hsize), if_pos hgroup]
    exact gives_pure _
  | @more _ group value _ hgroup _ ih =>
    have hsplit : low + (group + 128 * value) <<< digits =
        low + group <<< digits + value <<< (digits + 7) := by
      simp only [Nat.shiftLeft_eq, pow_add]
      ring
    rw [hsplit] at hsize ⊢
    have hlow : (group + 128) % 128 = group := by omega
    refine (gives_ofNat (by omega)).bind ?_
    simp only [hlow]
    rw [if_neg (Nat.not_le_of_lt ((Nat.le_add_right _ _).trans_lt hsize)), if_neg (by omega)]
    exact ih hsize

/-- A number is read back from each of its spellings with at most ten groups. -/
theorem gives_numeral {bits : Bits} {value : ℕ} (h : Grammar.number bits value) :
    Gives number bits value := by
  refine gives_of_position fun start ↦ ?_
  have hgives : Gives (numberFrom start 10 0 0) bits (0 + value <<< 0) :=
    gives_numberFrom start h.1 (by simpa using h.2)
  rwa [Nat.zero_add, Nat.shiftLeft_zero] at hgives

/-- A number below 2^64 is read back from the spelling that a writer chooses. -/
theorem gives_number {value : ℕ} (h : value < UInt64.size) :
    Gives number (Bits.ofNumber value) value :=
  gives_numeral (Grammar.number_ofNumber h)

/-- A claimed count is checked against the bits that are left, which does not refuse a count that
the bits behind it bear out. -/
theorem gives_counted {next : ℕ → Reading β} {count : ℕ} {bits : Bits} {result : β}
    (fault : ℕ → StreamFault) (hsize : count < UInt64.size) (hroom : count ≤ bits.length)
    (h : (next count).Gives bits result) :
    Gives (counted fault next) (Bits.ofNumber count ++ bits) result := by
  refine gives_of_position fun start ↦ (gives_number hsize).bind ?_
  refine gives_of_remaining fun left hleft ↦ ?_
  rw [if_neg (Nat.not_lt_of_le (hroom.trans hleft))]
  exact h

/-! ### Items -/

section Items

variable {read : ℕ → Reading α} {pieces : List Bits} {values : List α}

theorem gives_itemsAfter
    (h : List.Forall₂ (fun piece value ↦ ∀ index, (read index).Gives piece value) pieces values)
    (found : List α) (index : ℕ) :
    Gives (itemsAfter read values.length found index) pieces.flatten (found.reverse ++ values) := by
  induction h generalizing found index with
  | nil =>
    rw [List.append_nil]
    exact gives_pure found.reverse
  | @cons piece value pieces values hfirst _ ih =>
    rw [List.flatten_cons, List.length_cons]
    refine (hfirst index).bind ?_
    have hrest := ih (value :: found) (index + 1)
    rwa [List.reverse_cons, List.append_assoc, List.singleton_append] at hrest

/-- Items that are read back each are read back together. -/
theorem gives_items
    (h : List.Forall₂ (fun piece value ↦ ∀ index, (read index).Gives piece value) pieces values) :
    Gives (items values.length read) pieces.flatten values :=
  gives_itemsAfter h [] 0

end Items

end Reading

end HuffmanCoding
