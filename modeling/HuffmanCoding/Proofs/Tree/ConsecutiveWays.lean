import HuffmanCoding.Bits.Lemmas
import HuffmanCoding.Proofs.Tree.Canonical

/-!
# Consecutive ways

A way of some length, read as a number, says how many bit sequences of this length come before it.
The ways to the leaves of a tree, from left to right, are consecutive: each begins where the one
before it ends, so that what comes before a way is what the ways to the leaves on its left take up
(`consecutive_paths`).

Where lengths do not decrease, this leaves no choice. A way is the number after the one before it,
with zeros behind it where the length grows (`canonicalNumbers`), so the ways of a tree whose depths
are in order have the canonical numbers (`map_toNat_paths`), and these grow
(`pairwise_canonicalNumbers`).
-/

set_option autoImplicit false
set_option relaxedAutoImplicit false

namespace HuffmanCoding

/-- Numbers that say the same for different lengths differ by zeros at the end. -/
theorem eq_shiftLeft_of_share_eq {number longer length shorter : ℕ} (h : shorter ≤ length)
    (hshare : longer * kraftShare length = number * kraftShare shorter) :
    longer = number <<< (length - shorter) := by
  have hscaled := congrArg (· * (2 : ℚ) ^ length) hshare
  simp only [mul_assoc, kraftShare_mul_two_pow_self, kraftShare_mul_two_pow h, mul_one] at hscaled
  rw [Nat.shiftLeft_eq]
  exact_mod_cast hscaled

namespace Bits

/-- Each way begins where the one before it ends, and the first one where `start` of all bit
sequences have come before it. -/
def Consecutive : (start : ℚ) → List Bits → Prop
  | _, [] => True
  | start, way :: ways =>
    toNat way * kraftShare way.length = start ∧ Consecutive (start + kraftShare way.length) ways

theorem consecutive_append {start : ℚ} {first second : List Bits} :
    Consecutive start (first ++ second) ↔
      Consecutive start first ∧
        Consecutive (start + kraftSum (first.map List.length)) second := by
  induction first generalizing start with
  | nil => simp [Consecutive]
  | cons way first ih =>
    rw [List.cons_append, Consecutive, ih, Consecutive, and_assoc, List.map_cons, kraftSum_cons,
      add_assoc]

/-- Below one side of a node, ways are consecutive in half of the bit sequences. -/
theorem Consecutive.map_cons {start : ℚ} {ways : List Bits} (h : Consecutive start ways)
    (bit : Bool) : Consecutive ((bit.toNat + start) / 2) (ways.map (bit :: ·)) := by
  induction ways generalizing start with
  | nil => trivial
  | cons way ways ih =>
    obtain ⟨hstart, hrest⟩ := h
    have hhalf := kraftShare_eq_two_mul way.length
    have hwhole := kraftShare_mul_two_pow_self way.length
    refine ⟨?_, ?_⟩
    · rw [toNat_cons, List.length_cons]
      push_cast
      rw [hhalf] at hstart hwhole
      linear_combination (bit.toNat : ℚ) / 2 * hwhole + hstart / 2
    · have hnext : (bit.toNat + start) / 2 + kraftShare (way.length + 1) =
          (bit.toNat + (start + kraftShare way.length)) / 2 := by
        rw [hhalf]
        ring
      rw [List.length_cons, hnext]
      exact ih hrest

/-- Nothing comes between the start and the first of consecutive ways. -/
theorem Consecutive.le_of_mem {start : ℚ} {ways : List Bits} (h : Consecutive start ways)
    {way : Bits} (hway : way ∈ ways) : start ≤ toNat way * kraftShare way.length := by
  induction ways generalizing start with
  | nil => exact absurd hway List.not_mem_nil
  | cons first ways ih =>
    rcases List.mem_cons.mp hway with rfl | hbehind
    · exact h.1.ge
    · have hpos := kraftShare_pos first.length
      have hnext := ih h.2 hbehind
      linarith

/-- Consecutive ways whose lengths do not decrease grow as numbers. -/
theorem Consecutive.pairwise_toNat {start : ℚ} {ways : List Bits} (h : Consecutive start ways)
    (hsorted : (ways.map List.length).Pairwise (· ≤ ·)) :
    (ways.map toNat).Pairwise (· < ·) := by
  induction ways generalizing start with
  | nil => exact List.Pairwise.nil
  | cons first ways ih =>
    rw [List.map_cons, List.pairwise_cons] at hsorted ⊢
    refine ⟨fun number hnumber ↦ ?_, ih h.2 hsorted.2⟩
    obtain ⟨way, hway, rfl⟩ := List.mem_map.mp hnumber
    have hlength : first.length ≤ way.length :=
      hsorted.1 _ (List.mem_map_of_mem hway)
    have hbehind : (toNat first + 1) * kraftShare first.length ≤
        toNat way * kraftShare first.length := by
      calc (toNat first + 1) * kraftShare first.length
          = start + kraftShare first.length := by rw [add_mul, one_mul, h.1]
        _ ≤ toNat way * kraftShare way.length := h.2.le_of_mem hway
        _ ≤ toNat way * kraftShare first.length :=
          mul_le_mul_of_nonneg_left (kraftShare_anti hlength) (Nat.cast_nonneg _)
    have hnext := le_of_mul_le_mul_right hbehind (kraftShare_pos first.length)
    exact_mod_cast hnext

end Bits

/-! ### Canonical numbers -/

/-- The numbers of canonical ways of some lengths, where `code` is the number after the last way,
which had `previous` bits. -/
def canonicalNumbersFrom (code previous : ℕ) : List ℕ → List ℕ
  | [] => []
  | length :: lengths =>
    code <<< (length - previous) ::
      canonicalNumbersFrom (code <<< (length - previous) + 1) length lengths

/-- The numbers of the canonical ways of lengths in order: the first one is zero, and each other one
is the number after the one before it, with zeros behind it where the length grows. -/
def canonicalNumbers (lengths : List ℕ) : List ℕ :=
  canonicalNumbersFrom 0 (lengths.headD 0) lengths

/-- Consecutive ways whose lengths do not decrease are canonical. -/
theorem Bits.Consecutive.map_toNat {ways : List Bits} {code previous : ℕ}
    (h : Consecutive (code * kraftShare previous) ways)
    (hsorted : (previous :: ways.map List.length).Pairwise (· ≤ ·)) :
    ways.map toNat = canonicalNumbersFrom code previous (ways.map List.length) := by
  induction ways generalizing code previous with
  | nil => rfl
  | cons way ways ih =>
    obtain ⟨hstart, hrest⟩ := h
    rw [List.map_cons] at hsorted
    have hnumber := eq_shiftLeft_of_share_eq (List.rel_of_pairwise_cons hsorted (by simp)) hstart
    rw [← hstart, ← add_one_mul] at hrest
    rw [List.map_cons, List.map_cons, canonicalNumbersFrom, ← hnumber]
    exact congrArg (toNat way :: ·) (ih (by exact_mod_cast hrest) hsorted.of_cons)

theorem headD_le {lengths : List ℕ} (hsorted : lengths.Pairwise (· ≤ ·)) {length : ℕ}
    (h : length ∈ lengths) : lengths.headD 0 ≤ length := by
  cases lengths with
  | nil => exact absurd h List.not_mem_nil
  | cons first lengths =>
    rcases List.mem_cons.mp h with rfl | hbehind
    · exact le_rfl
    · exact List.rel_of_pairwise_cons hsorted hbehind

namespace Tree

variable {S : Type}

/-- The ways to the leaves of a tree, from left to right, are consecutive. -/
theorem consecutive_paths (tree : Tree S) : Bits.Consecutive 0 (tree.paths.map (·.2)) := by
  induction tree with
  | leaf position content => simp [paths, Bits.Consecutive]
  | node position weight left right ihLeft ihRight =>
    have hleft := ihLeft.map_cons false
    have hright := ihRight.map_cons true
    have hhalf : kraftSum (left.paths.map fun way ↦ way.2.length + 1) = 1 / 2 := by
      have hsum := kraftSum_map_succ left.depths
      rw [kraftSum_depths, depths_eq_paths, List.map_map] at hsum
      change 2 * kraftSum (left.paths.map fun way ↦ way.2.length + 1) = 1 at hsum
      linarith
    rw [paths, List.map_append, Bits.consecutive_append]
    simp only [List.map_map, Function.comp_def, List.length_cons, hhalf] at hleft hright ⊢
    norm_num at hleft hright ⊢
    exact ⟨hleft, hright⟩

theorem map_length_paths (tree : Tree S) :
    (tree.paths.map (·.2)).map List.length = tree.depths := by
  rw [depths_eq_paths, List.map_map]
  rfl

/-- Where the depths of a tree are in order, its ways have the canonical numbers. -/
theorem map_toNat_paths {tree : Tree S} (hsorted : tree.depths.Pairwise (· ≤ ·)) :
    (tree.paths.map (·.2)).map Bits.toNat = canonicalNumbers tree.depths := by
  rw [← map_length_paths] at hsorted ⊢
  exact Bits.Consecutive.map_toNat (by simpa using tree.consecutive_paths)
    (List.pairwise_cons.mpr ⟨fun _ hlength ↦ headD_le hsorted hlength, hsorted⟩)

/-- Where the depths of a tree are in order, the canonical numbers grow. -/
theorem pairwise_canonicalNumbers {tree : Tree S} (hsorted : tree.depths.Pairwise (· ≤ ·)) :
    (canonicalNumbers tree.depths).Pairwise (· < ·) := by
  rw [← map_toNat_paths hsorted]
  rw [← map_length_paths] at hsorted
  exact tree.consecutive_paths.pairwise_toNat hsorted

end Tree

end HuffmanCoding
