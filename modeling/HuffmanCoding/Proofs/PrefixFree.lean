import HuffmanCoding.Codebook
import HuffmanCoding.Proofs.WindowTable
import Mathlib.Data.List.Perm.Basic

/-!
# Neighbours suffice

Whether a codeword begins another one is checked on neighbours only, after the codewords were sorted
by the streams that start with them. In that order everything between a codeword and one that it
begins is begun by it too (`path_prefix_of_precedes`), so an overlap anywhere is an overlap of
neighbours (`isPrefixFreeChain_iff`). Hence the check finds out exactly whether the codewords part
from each other (`arePrefixFree_iff`), provided that each of them has a bit, no more than 32, and no
digit set above its length. Whatever the codewords are, none of them is there twice if the check
passes (`nodup_of_arePrefixFree`).
-/

set_option autoImplicit false
set_option relaxedAutoImplicit false

namespace HuffmanCoding.Codeword

open WindowTable

variable {first second third : Codeword}

/-- Comparing the numbers of tight codewords compares their paths. -/
theorem begins_iff (hfirst : first.IsTight) (hsecond : second.IsTight) :
    first.begins second = true ↔ first.path <+: second.path := by
  rw [begins, Bool.and_eq_true, decide_eq_true_eq, beq_iff_eq, UInt8.le_iff_toNat_le]
  constructor
  · rintro ⟨hlength, hbits⟩
    exact (hfirst.path_prefix_iff hlength hsecond).mpr hbits
  · intro hprefix
    have hlength : first.length.toNat ≤ second.length.toNat := by
      have hle := hprefix.length_le
      rwa [length_path, length_path] at hle
    exact ⟨hlength, (hfirst.path_prefix_iff hlength hsecond).mp hprefix⟩

/-! ### The order of the streams -/

theorem precedes_iff : first.precedes second = true ↔ first.aligned < second.aligned ∨
    first.aligned = second.aligned ∧ first.length.toNat ≤ second.length.toNat := by
  simp only [precedes, Bool.or_eq_true, Bool.and_eq_true, decide_eq_true_eq, beq_iff_eq,
    UInt8.le_iff_toNat_le]

theorem precedes_trans (hfirst : first.precedes second = true)
    (hsecond : second.precedes third = true) : first.precedes third = true := by
  rw [precedes_iff] at hfirst hsecond ⊢
  omega

theorem precedes_total (first second : Codeword) :
    (first.precedes second || second.precedes first) = true := by
  rw [Bool.or_eq_true, precedes_iff, precedes_iff]
  omega

theorem precedes_antisymm (hfirst : first.precedes second = true)
    (hsecond : second.precedes first = true) : first = second := by
  rw [precedes_iff] at hfirst hsecond
  have hlength : first.length = second.length := UInt8.toNat_inj.mp (by omega)
  have haligned : first.aligned = second.aligned := by omega
  rw [aligned, aligned, hlength, Nat.shiftLeft_eq, Nat.shiftLeft_eq] at haligned
  have hbits : first.bits = second.bits :=
    UInt32.toNat_inj.mp (Nat.eq_of_mul_eq_mul_right (Nat.two_pow_pos _) haligned)
  cases first
  cases second
  exact congr (congrArg mk hbits) hlength

/-- Codewords are sorted by the streams that start with them. -/
theorem pairwise_sorted (codewords : List Codeword) :
    (codewords.mergeSort precedes).Pairwise fun first second ↦ first.precedes second = true := by
  refine List.pairwise_mergeSort ?_ precedes_total codewords
  intro first second third
  exact precedes_trans

/-! ### Overlaps in a sorted list -/

section Overlaps

variable (hfirst : Fits 32 first) (hsecond : Fits 32 second)

include hfirst hsecond

/-- What a codeword begins starts in the range of its windows. -/
theorem aligned_of_path_prefix (h : first.path <+: second.path) :
    first.aligned ≤ second.aligned ∧
      second.aligned < first.aligned + windowCount 32 first := by
  obtain ⟨hwindow, hbegins⟩ := hsecond.begins_firstWindow
  exact (hfirst.begins_iff hwindow).mp (h.trans hbegins)

/-- A codeword that starts in the range of windows of another one overlaps with it. -/
theorem not_part_of_aligned (hlow : first.aligned ≤ second.aligned)
    (hhigh : second.aligned < first.aligned + windowCount 32 first) :
    ¬ Bits.Part first.path second.path := by
  obtain ⟨hwindow, hbegins⟩ := hsecond.begins_firstWindow
  exact Bits.not_part_of_prefix ((hfirst.begins_iff hwindow).mpr ⟨hlow, hhigh⟩) hbegins

/-- Of two codewords that overlap the one that comes first begins the other one. -/
theorem path_prefix_of_not_part (horder : first.precedes second = true)
    (h : ¬ Bits.Part first.path second.path) : first.path <+: second.path := by
  by_contra hnot
  have hback : second.path <+: first.path := by
    by_contra hback
    exact h ⟨hnot, hback⟩
  have hrange := aligned_of_path_prefix hsecond hfirst hback
  have hlength : first.path.length ≤ second.path.length := by
    rw [precedes_iff] at horder
    rw [length_path, length_path]
    omega
  have heq := hback.eq_of_length (hback.length_le.antisymm hlength)
  exact hnot (heq ▸ List.prefix_refl _)

/-- Everything between a codeword and one that it begins is begun by it too. -/
theorem path_prefix_of_precedes (hthird : Fits 32 third) (hlow : first.precedes second = true)
    (hhigh : second.precedes third = true) (h : first.path <+: third.path) :
    first.path <+: second.path := by
  have hrange := aligned_of_path_prefix hfirst hthird h
  refine path_prefix_of_not_part hfirst hsecond hlow
    (not_part_of_aligned hfirst hsecond ?_ ?_)
  · rw [precedes_iff] at hlow
    omega
  · rw [precedes_iff] at hhigh
    omega

end Overlaps

variable {codewords : List Codeword}

/-- In a sorted list no neighbours overlap exactly if no two codewords do. -/
theorem isPrefixFreeChain_iff (hfits : ∀ codeword ∈ codewords, Fits 32 codeword)
    (hsorted : codewords.Pairwise fun first second ↦ first.precedes second = true) :
    isPrefixFreeChain codewords = true ↔
      codewords.Pairwise fun first second ↦ Bits.Part first.path second.path := by
  induction codewords with
  | nil => exact iff_of_true rfl List.Pairwise.nil
  | cons first rest ih =>
    cases rest with
    | nil => exact iff_of_true rfl (List.pairwise_singleton _ _)
    | cons second rest =>
      have hfirst := hfits first (List.mem_cons_self ..)
      have hrest (other : Codeword) (hother : other ∈ second :: rest) : Fits 32 other :=
        hfits other (List.mem_cons_of_mem _ hother)
      have hsecond := hrest second (List.mem_cons_self ..)
      obtain ⟨hleast, htail⟩ := List.pairwise_cons.mp hsorted
      have horder := hleast second (List.mem_cons_self ..)
      rw [isPrefixFreeChain, Bool.and_eq_true, Bool.not_eq_true', ← Bool.not_eq_true,
        begins_iff hfirst.isTight hsecond.isTight, List.pairwise_cons, ih hrest htail]
      refine and_congr_left fun _ ↦ ?_
      constructor
      · intro hneighbour other hother
        by_contra hoverlap
        have hbegun := path_prefix_of_not_part hfirst (hrest other hother)
          (hleast other hother) hoverlap
        rcases List.mem_cons.mp hother with rfl | hlater
        · exact hneighbour hbegun
        · exact hneighbour (path_prefix_of_precedes hfirst hsecond (hrest other hother) horder
            ((List.pairwise_cons.mp htail).1 other hlater) hbegun)
      · intro hall
        exact (hall second (List.mem_cons_self ..)).1

/-- The check finds out whether the codewords part from each other. -/
theorem arePrefixFree_iff (hfits : ∀ codeword ∈ codewords, Fits 32 codeword) :
    arePrefixFree codewords = true ↔
      codewords.Pairwise fun first second ↦ Bits.Part first.path second.path := by
  have hperm := codewords.mergeSort_perm precedes
  rw [arePrefixFree, isPrefixFreeChain_iff (fun codeword h ↦ hfits codeword (hperm.mem_iff.mp h))
    (pairwise_sorted codewords)]
  exact hperm.pairwise_iff fun h ↦ h.symm

/-! ### Codewords that are there twice -/

theorem begins_self (codeword : Codeword) : codeword.begins codeword = true := by
  simp [begins]

/-- A codeword that is there twice has itself as a neighbour. -/
theorem nodup_of_isPrefixFreeChain (h : isPrefixFreeChain codewords = true)
    (hsorted : codewords.Pairwise fun first second ↦ first.precedes second = true) :
    codewords.Nodup := by
  induction codewords with
  | nil => exact List.nodup_nil
  | cons first rest ih =>
    cases rest with
    | nil => exact List.pairwise_singleton _ _
    | cons second rest =>
      obtain ⟨hleast, htail⟩ := List.pairwise_cons.mp hsorted
      rw [isPrefixFreeChain, Bool.and_eq_true, Bool.not_eq_true'] at h
      refine List.nodup_cons.mpr ⟨fun hmem ↦ ?_, ih h.2 htail⟩
      have hneighbour := hleast second (List.mem_cons_self ..)
      have heq : first = second := by
        rcases List.mem_cons.mp hmem with heq | hlater
        · exact heq
        · exact precedes_antisymm hneighbour ((List.pairwise_cons.mp htail).1 first hlater)
      rw [heq, begins_self] at h
      exact absurd h.1 (by decide)

/-- The check finds out whether a codeword is there twice, whatever the codewords are. -/
theorem nodup_of_arePrefixFree (h : arePrefixFree codewords = true) : codewords.Nodup :=
  (codewords.mergeSort_perm precedes).nodup_iff.mp
    (nodup_of_isPrefixFreeChain h (pairwise_sorted codewords))

end HuffmanCoding.Codeword
