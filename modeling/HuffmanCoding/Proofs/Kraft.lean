import Mathlib.Algebra.BigOperators.Group.List.Basic
import Mathlib.Algebra.Order.BigOperators.Group.List
import Mathlib.Algebra.Order.Field.Rat
import Mathlib.Tactic.FieldSimp
import Mathlib.Tactic.GCongr
import Mathlib.Tactic.LinearCombination
import Mathlib.Tactic.Linarith
import Mathlib.Tactic.NormNum
import Mathlib.Tactic.Positivity
import Mathlib.Tactic.Ring

/-!
# Kraft sums

A codeword of length `l` takes up the part 2^-l of all bit sequences. The Kraft sum of some lengths
is the part that codewords of these lengths take up together. It is at most one for the lengths of a
prefix code, and exactly one if the code leaves no room for another codeword.

Scaled by a power of two that is great enough for every length, a Kraft sum is a natural number
(`kraftSum_mul_two_pow`). This is why codewords of one length fill the room that others leave
(`exists_missing`) and a sum below one stays away from one (`kraftSum_le_one_sub`), which makes room
for a shorter codeword.
-/

set_option autoImplicit false
set_option relaxedAutoImplicit false

namespace HuffmanCoding

/-- The part of all bit sequences that begin with a given codeword of that length. -/
def kraftShare (length : ℕ) : ℚ :=
  (1 / 2) ^ length

/-- The part of all bit sequences that codewords of the given lengths take up. -/
def kraftSum (lengths : List ℕ) : ℚ :=
  (lengths.map kraftShare).sum

/-! ### Shares -/

@[simp] theorem kraftShare_zero : kraftShare 0 = 1 := by
  simp [kraftShare]

theorem kraftShare_pos (length : ℕ) : 0 < kraftShare length := by
  unfold kraftShare
  positivity

/-- A codeword takes up twice as much as the codewords that are one bit longer. -/
theorem kraftShare_eq_two_mul (length : ℕ) : kraftShare length = 2 * kraftShare (length + 1) := by
  unfold kraftShare
  rw [pow_succ]
  ring

/-- Scaled by a power of two that is great enough, a share is a power of two. -/
theorem kraftShare_mul_two_pow {length width : ℕ} (h : length ≤ width) :
    kraftShare length * 2 ^ width = (2 ^ (width - length) : ℕ) := by
  obtain ⟨spare, rfl⟩ := Nat.exists_eq_add_of_le h
  rw [Nat.add_sub_cancel_left, kraftShare, pow_add, ← mul_assoc, ← mul_pow]
  norm_num

theorem kraftShare_mul_two_pow_self (length : ℕ) : kraftShare length * 2 ^ length = 1 := by
  rw [kraftShare_mul_two_pow le_rfl, Nat.sub_self, pow_zero, Nat.cast_one]

/-- Longer codewords take up less. -/
theorem kraftShare_anti {length longer : ℕ} (h : length ≤ longer) :
    kraftShare longer ≤ kraftShare length :=
  pow_le_pow_of_le_one (by norm_num) (by norm_num) h

/-! ### Sums -/

@[simp] theorem kraftSum_nil : kraftSum [] = 0 := rfl

@[simp] theorem kraftSum_cons (length : ℕ) (lengths : List ℕ) :
    kraftSum (length :: lengths) = kraftShare length + kraftSum lengths := by
  simp [kraftSum]

@[simp] theorem kraftSum_append (first second : List ℕ) :
    kraftSum (first ++ second) = kraftSum first + kraftSum second := by
  simp [kraftSum]

theorem kraftSum_perm {first second : List ℕ} (h : first.Perm second) :
    kraftSum first = kraftSum second :=
  (h.map kraftShare).sum_eq

theorem kraftSum_nonneg (lengths : List ℕ) : 0 ≤ kraftSum lengths := by
  induction lengths with
  | nil => rfl
  | cons length lengths ih =>
    rw [kraftSum_cons]
    exact add_nonneg (kraftShare_pos length).le ih

/-- Only no codewords at all take up nothing. -/
theorem kraftSum_eq_zero_iff {lengths : List ℕ} : kraftSum lengths = 0 ↔ lengths = [] := by
  cases lengths with
  | nil => simp
  | cons length lengths =>
    have hpos := add_pos_of_pos_of_nonneg (kraftShare_pos length) (kraftSum_nonneg lengths)
    simp [hpos.ne']

/-- Codewords that are all one bit longer take up half as much. -/
theorem kraftSum_map_succ (lengths : List ℕ) :
    2 * kraftSum (lengths.map (· + 1)) = kraftSum lengths := by
  induction lengths with
  | nil => simp
  | cons length lengths ih =>
    rw [List.map_cons, kraftSum_cons, kraftSum_cons, mul_add, ih, ← kraftShare_eq_two_mul]

/-- Scaled by a power of two that is great enough for all lengths, a Kraft sum is a natural
number. -/
theorem kraftSum_mul_two_pow {lengths : List ℕ} {width : ℕ}
    (h : ∀ length ∈ lengths, length ≤ width) :
    kraftSum lengths * 2 ^ width = ((lengths.map fun length ↦ 2 ^ (width - length)).sum : ℕ) := by
  induction lengths with
  | nil => simp
  | cons length lengths ih =>
    rw [kraftSum_cons, add_mul, kraftShare_mul_two_pow (h length (by simp)),
      ih fun other hother ↦ h other (List.mem_cons_of_mem length hother)]
    simp

/-- If some codewords leave any room, a number of codewords of a greatest length fills it. -/
theorem exists_missing {lengths : List ℕ} {width : ℕ} (h : ∀ length ∈ lengths, length ≤ width)
    (hroom : kraftSum lengths < 1) :
    ∃ missing, 0 < missing ∧ kraftSum (lengths ++ List.replicate missing width) = 1 := by
  have hscaled := kraftSum_mul_two_pow h
  have hwidth := kraftShare_mul_two_pow_self width
  generalize (lengths.map fun length ↦ 2 ^ (width - length)).sum = taken at hscaled
  have hpow : (0 : ℚ) < 2 ^ width := by positivity
  have hlt : taken < 2 ^ width := by
    have := mul_lt_mul_of_pos_right hroom hpow
    rw [one_mul, hscaled] at this
    exact_mod_cast this
  refine ⟨2 ^ width - taken, by omega, ?_⟩
  have hfilled : kraftSum (List.replicate (2 ^ width - taken) width) =
      (2 ^ width - taken : ℕ) * kraftShare width := by
    rw [kraftSum, List.map_replicate, List.sum_replicate, nsmul_eq_mul]
  rw [kraftSum_append, hfilled, Nat.cast_sub hlt.le]
  push_cast
  linear_combination kraftShare width * hscaled + (1 - kraftSum lengths) * hwidth

/-- If some codewords leave any room, they leave room for one that is as long as the longest of
them. -/
theorem kraftSum_le_one_sub {lengths : List ℕ} {width : ℕ} (h : ∀ length ∈ lengths, length ≤ width)
    (hroom : kraftSum lengths < 1) : kraftSum lengths + kraftShare width ≤ 1 := by
  obtain ⟨missing, hmissing, hsum⟩ := exists_missing h hroom
  obtain ⟨more, rfl⟩ := Nat.exists_eq_add_one_of_ne_zero hmissing.ne'
  have hmore := kraftSum_nonneg (List.replicate more width)
  rw [List.replicate_succ, kraftSum_append, kraftSum_cons] at hsum
  linarith

/-- If some codewords leave any room, the longest of them can be one bit shorter. -/
theorem exists_shorter_of_kraftSum_lt_one {longest : ℕ} {lengths : List ℕ}
    (h : ∀ length ∈ lengths, length ≤ longest) (hroom : kraftSum (longest :: lengths) < 1) :
    ∃ shorter, longest = shorter + 1 ∧ kraftSum (shorter :: lengths) ≤ 1 := by
  have hall : ∀ length ∈ longest :: lengths, length ≤ longest :=
    List.forall_mem_cons.mpr ⟨le_rfl, h⟩
  have hmore := kraftSum_le_one_sub hall hroom
  rw [kraftSum_cons] at hmore
  cases longest with
  | zero =>
    have hnonneg := kraftSum_nonneg lengths
    rw [kraftShare_zero] at hmore
    linarith
  | succ shorter =>
    refine ⟨shorter, rfl, ?_⟩
    rw [kraftSum_cons, kraftShare_eq_two_mul]
    linarith

end HuffmanCoding
