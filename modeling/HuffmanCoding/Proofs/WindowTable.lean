import HuffmanCoding.Proofs.Codeword
import HuffmanCoding.Proofs.Outcome
import HuffmanCoding.WindowTable
import Mathlib.Data.List.Perm.Subperm

/-!
# What a window table holds

The windows that a codeword begins are consecutive, so entering a codeword into a table is filling a
range that has to be vacant. A table holds some codewords (`Holds`) if each window that one of them
begins names this codeword and all other windows are vacant. Entering one more codeword keeps this
(`Holds.of_enter`), and it succeeds for a codeword that fits and parts from those that are there
(`Holds.exists_enter`). Hence `build` yields a table that holds the given codewords
(`holds_of_build`), and it does so for all codewords that fit and part from each other
(`exists_build`).
-/

set_option autoImplicit false
set_option relaxedAutoImplicit false

namespace HuffmanCoding.WindowTable

/-! ### Filling a range -/

/-- One slot was put into `count` consecutive windows, all of which had been vacant. -/
structure Occupied (slot : WindowSlot) (count window : ℕ) (slots filled : Array WindowSlot) :
    Prop where
  vacant : ∀ place, window ≤ place → place < window + count →
    (slots.getD place .vacant).isTaken = false
  size_eq : filled.size = slots.size
  slot_eq : ∀ place < slots.size, filled.getD place .vacant =
    if window ≤ place ∧ place < window + count then slot else slots.getD place .vacant

theorem getD_setIfInBounds_of_ne {slots : Array WindowSlot} {slot : WindowSlot}
    {window place : ℕ} (h : place ≠ window) :
    (slots.setIfInBounds window slot).getD place .vacant = slots.getD place .vacant := by
  rw [Array.getD_eq_getD_getElem?, Array.getD_eq_getD_getElem?,
    Array.getElem?_setIfInBounds_ne h.symm]

theorem getD_setIfInBounds_self {slots : Array WindowSlot} {slot : WindowSlot} {window : ℕ}
    (h : window < slots.size) :
    (slots.setIfInBounds window slot).getD window .vacant = slot := by
  rw [Array.getD_eq_getD_getElem?, Array.getElem?_setIfInBounds_self_of_lt h, Option.getD_some]

theorem occupied_of_occupy {slot : WindowSlot} {count window : ℕ}
    {slots filled : Array WindowSlot} (h : occupy slot count window slots = .ok filled) :
    Occupied slot count window slots filled := by
  induction count generalizing window slots with
  | zero =>
    have heq : slots = filled := Except.ok.inj h
    subst heq
    exact ⟨by omega, rfl, fun place _ ↦ (if_neg (by omega)).symm⟩
  | succ count ih =>
    unfold occupy at h
    split_ifs at h with htaken
    obtain ⟨hvacant, hsize, hslot⟩ := ih h
    rw [Array.size_setIfInBounds] at hsize hslot
    refine ⟨fun place hlow hhigh ↦ ?_, hsize, fun place hplace ↦ ?_⟩
    · by_cases hfirst : place = window
      · rw [hfirst]
        exact Bool.eq_false_iff.mpr htaken
      · rw [← getD_setIfInBounds_of_ne hfirst]
        exact hvacant place (by omega) (by omega)
    · rw [hslot place hplace]
      by_cases hfirst : place = window
      · subst hfirst
        rw [if_neg (by omega), if_pos (by omega), getD_setIfInBounds_self hplace]
      · rw [getD_setIfInBounds_of_ne hfirst]
        exact if_congr (by omega) rfl rfl

theorem exists_occupy {slot : WindowSlot} {count window : ℕ} {slots : Array WindowSlot}
    (h : ∀ place, window ≤ place → place < window + count →
      (slots.getD place .vacant).isTaken = false) :
    ∃ filled, occupy slot count window slots = .ok filled := by
  induction count generalizing window slots with
  | zero => exact ⟨slots, rfl⟩
  | succ count ih =>
    have hfirst : ¬ (slots.getD window .vacant).isTaken = true :=
      Bool.eq_false_iff.mp (h window le_rfl (by omega))
    unfold occupy
    rw [if_neg hfirst]
    refine ih fun place hlow hhigh ↦ ?_
    rw [getD_setIfInBounds_of_ne (by omega)]
    exact h place (by omega) (by omega)

/-! ### Entering a codeword -/

/-- A codeword can be told apart in a window of a width. -/
structure Fits (width : ℕ) (codeword : Codeword) : Prop where
  length_pos : 0 < codeword.length.toNat
  length_le : codeword.length.toNat ≤ width
  isTight : codeword.IsTight

def Begins (width : ℕ) (codeword : Codeword) (window : ℕ) : Prop :=
  codeword.path <+: Bits.ofNat width window

def firstWindow (width : ℕ) (codeword : Codeword) : ℕ :=
  codeword.bits.toNat <<< (width - codeword.length.toNat)

def windowCount (width : ℕ) (codeword : Codeword) : ℕ :=
  1 <<< (width - codeword.length.toNat)

section Fits

variable {width : ℕ} {codeword : Codeword}

theorem Fits.begins_iff (h : Fits width codeword) {window : ℕ} (hwindow : window < 2 ^ width) :
    Begins width codeword window ↔ firstWindow width codeword ≤ window ∧
      window < firstWindow width codeword + windowCount width codeword :=
  Bits.ofNat_prefix_ofNat_iff_mem_range h.length_le h.isTight hwindow

theorem Fits.firstWindow_add_le (h : Fits width codeword) :
    firstWindow width codeword + windowCount width codeword ≤ 2 ^ width :=
  Bits.shiftLeft_add_le h.length_le h.isTight

theorem Fits.begins_firstWindow (h : Fits width codeword) :
    firstWindow width codeword < 2 ^ width ∧
      Begins width codeword (firstWindow width codeword) := by
  have hle := h.firstWindow_add_le
  have hpos : 0 < windowCount width codeword := by
    rw [windowCount, Nat.one_shiftLeft]
    exact Nat.two_pow_pos _
  have hlt : firstWindow width codeword < 2 ^ width := by omega
  exact ⟨hlt, (h.begins_iff hlt).mpr ⟨le_rfl, by omega⟩⟩

/-- Entering a codeword checks that it fits and fills the windows that it begins. -/
theorem enter_eq_ok_iff {width : UInt8} {slots filled : Array WindowSlot} {token : ℕ} :
    enter width slots codeword token = .ok filled ↔ Fits width.toNat codeword ∧
      occupy ⟨UInt32.ofNat token, codeword.length⟩ (windowCount width.toNat codeword)
        (firstWindow width.toNat codeword) slots = .ok filled := by
  have htight : codeword.bits.toNat >>> codeword.length.toNat = 0 ↔ codeword.IsTight := by
    rw [Nat.shiftRight_eq_div_pow, Nat.div_eq_zero_iff, Codeword.IsTight]
    have := Nat.two_pow_pos codeword.length.toNat
    omega
  simp only [enter]
  split_ifs with hout
  · refine ⟨fun h ↦ (by cases h), fun ⟨hfits, _⟩ ↦ ?_⟩
    rcases hout with hzero | hlong | hloose
    · exact absurd hfits.length_pos (by omega)
    · exact absurd hfits.length_le (by omega)
    · exact absurd (htight.mpr hfits.isTight) hloose
  · have hfits : Fits width.toNat codeword := by
      rw [not_or, not_or, not_not, htight] at hout
      exact ⟨by omega, by omega, hout.2.2⟩
    exact (and_iff_right hfits).symm

end Fits

/-! ### The codewords in a table -/

/-- The slots hold some codewords, which can all be told apart. -/
structure Holds (width : ℕ) (codewords : List Codeword) (slots : Array WindowSlot) : Prop where
  fits : ∀ codeword ∈ codewords, Fits width codeword
  part : codewords.Pairwise fun first second ↦ Bits.Part first.path second.path
  size_eq : slots.size = 2 ^ width
  slot_eq : ∀ {token codeword}, codewords[token]? = some codeword → ∀ window < 2 ^ width,
    Begins width codeword window →
      slots.getD window .vacant = ⟨UInt32.ofNat token, codeword.length⟩
  vacant : ∀ window < 2 ^ width, (∀ codeword ∈ codewords, ¬ Begins width codeword window) →
    slots.getD window .vacant = .vacant

/-- A table without codewords is vacant. -/
theorem holds_nil (width : ℕ) :
    Holds width [] (Array.replicate (1 <<< width) WindowSlot.vacant) where
  fits := by simp
  part := List.Pairwise.nil
  size_eq := by rw [Array.size_replicate, Nat.one_shiftLeft]
  slot_eq := by simp
  vacant := by
    intro window hwindow _
    rw [Array.getD_eq_getD_getElem?, Array.getElem?_replicate, Nat.one_shiftLeft, if_pos hwindow,
      Option.getD_some]

section Holds

variable {width : ℕ} {codewords : List Codeword} {slots : Array WindowSlot}

/-- A window that a codeword begins is taken. -/
theorem Holds.isTaken (h : Holds width codewords slots) {codeword : Codeword}
    (hmem : codeword ∈ codewords) {window : ℕ} (hwindow : window < 2 ^ width)
    (hbegins : Begins width codeword window) : (slots.getD window .vacant).isTaken = true := by
  obtain ⟨token, htoken⟩ := List.mem_iff_getElem?.mp hmem
  rw [h.slot_eq htoken window hwindow hbegins]
  have hpos := (h.fits codeword hmem).length_pos
  rw [WindowSlot.isTaken, decide_eq_true_eq, UInt8.lt_iff_toNat_lt]
  exact hpos

/-- A codeword parts from those in the table if all windows that it begins are vacant. -/
theorem Holds.part_of_vacant (h : Holds width codewords slots) {codeword other : Codeword}
    (hfits : Fits width codeword) (hother : other ∈ codewords)
    (hvacant : ∀ window < 2 ^ width, Begins width codeword window →
      (slots.getD window .vacant).isTaken = false) : Bits.Part other.path codeword.path := by
  refine ⟨fun hstart ↦ ?_, fun hstart ↦ ?_⟩
  · obtain ⟨hwindow, hbegins⟩ := hfits.begins_firstWindow
    have htaken := h.isTaken hother hwindow (hstart.trans hbegins)
    rw [hvacant _ hwindow hbegins] at htaken
    cases htaken
  · obtain ⟨hwindow, hbegins⟩ := (h.fits other hother).begins_firstWindow
    have htaken := h.isTaken hother hwindow hbegins
    rw [hvacant _ hwindow (hstart.trans hbegins)] at htaken
    cases htaken

/-- There are no more codewords than windows, since each of them begins a window of its own. -/
theorem Holds.length_le (h : Holds width codewords slots) : codewords.length ≤ 2 ^ width := by
  have hnodup : (codewords.map (firstWindow width)).Nodup := by
    rw [List.Nodup, List.pairwise_map]
    refine h.part.imp_of_mem fun {first second} hfirst hsecond hpart heq ↦ ?_
    have hbegins := (h.fits first hfirst).begins_firstWindow.2
    rw [heq] at hbegins
    exact Bits.not_part_of_prefix hbegins (h.fits second hsecond).begins_firstWindow.2 hpart
  have hwindows : codewords.map (firstWindow width) ⊆ List.range (2 ^ width) := by
    intro window hwindow
    obtain ⟨codeword, hmem, rfl⟩ := List.mem_map.mp hwindow
    exact List.mem_range.mpr (h.fits codeword hmem).begins_firstWindow.1
  have hle := (List.subperm_of_subset hnodup hwindows).length_le
  rwa [List.length_map, List.length_range] at hle

end Holds

section Enter

variable {width : UInt8} {codewords : List Codeword} {slots : Array WindowSlot}
  {codeword : Codeword}

/-- Entering a codeword adds it to those that a table holds. -/
theorem Holds.of_enter (h : Holds width.toNat codewords slots) {filled : Array WindowSlot}
    (henter : enter width slots codeword codewords.length = .ok filled) :
    Holds width.toNat (codewords ++ [codeword]) filled := by
  obtain ⟨hfits, hoccupy⟩ := enter_eq_ok_iff.mp henter
  obtain ⟨hrange, hsize, hslot⟩ := occupied_of_occupy hoccupy
  have hvacant (window : ℕ) (hwindow : window < 2 ^ width.toNat)
      (hbegins : Begins width.toNat codeword window) :
      (slots.getD window .vacant).isTaken = false := by
    obtain ⟨hlow, hhigh⟩ := (hfits.begins_iff hwindow).mp hbegins
    exact hrange window hlow hhigh
  have hfilled (window : ℕ) (hwindow : window < 2 ^ width.toNat) : filled.getD window .vacant =
      if firstWindow width.toNat codeword ≤ window ∧
        window < firstWindow width.toNat codeword + windowCount width.toNat codeword then
          ⟨UInt32.ofNat codewords.length, codeword.length⟩
      else slots.getD window .vacant := hslot window (h.size_eq ▸ hwindow)
  refine ⟨?_, ?_, hsize.trans h.size_eq, ?_, ?_⟩
  · intro other hother
    rcases List.mem_append.mp hother with hold | hnew
    · exact h.fits other hold
    · rw [List.mem_singleton.mp hnew]
      exact hfits
  · rw [List.pairwise_append]
    refine ⟨h.part, List.pairwise_singleton _ _, fun other hother last hlast ↦ ?_⟩
    rw [List.mem_singleton.mp hlast]
    exact h.part_of_vacant hfits hother hvacant
  · intro token other htoken window hwindow hbegins
    rw [hfilled window hwindow]
    rcases Nat.lt_or_ge token codewords.length with hold | hnew
    · rw [List.getElem?_append_left hold] at htoken
      have htaken := h.isTaken (List.mem_of_getElem? htoken) hwindow hbegins
      rw [if_neg fun hrange' ↦ ?_, h.slot_eq htoken window hwindow hbegins]
      rw [hrange window hrange'.1 hrange'.2] at htaken
      cases htaken
    · rw [List.getElem?_append_right hnew, List.getElem?_singleton] at htoken
      split_ifs at htoken with hzero
      cases htoken
      rw [if_pos ((hfits.begins_iff hwindow).mp hbegins)]
      congr 2
      omega
  · intro window hwindow hnone
    have hself := hnone codeword (by simp)
    rw [hfilled window hwindow, if_neg fun hin ↦ hself ((hfits.begins_iff hwindow).mpr hin)]
    exact h.vacant window hwindow fun other hother ↦ hnone other (by simp [hother])

/-- A codeword that fits can be entered if it parts from those that are there. -/
theorem Holds.exists_enter (h : Holds width.toNat codewords slots)
    (hfits : Fits width.toNat codeword)
    (hpart : ∀ other ∈ codewords, Bits.Part other.path codeword.path) (token : ℕ) :
    ∃ filled, enter width slots codeword token = .ok filled := by
  have hvacant : ∀ place, firstWindow width.toNat codeword ≤ place →
      place < firstWindow width.toNat codeword + windowCount width.toNat codeword →
        (slots.getD place .vacant).isTaken = false := by
    intro place hlow hhigh
    have hplace : place < 2 ^ width.toNat := hhigh.trans_le hfits.firstWindow_add_le
    have hbegins := (hfits.begins_iff hplace).mpr ⟨hlow, hhigh⟩
    rw [h.vacant place hplace fun other hother hother' ↦
      Bits.not_part_of_prefix hother' hbegins (hpart other hother)]
    rfl
  obtain ⟨filled, hfilled⟩ := exists_occupy hvacant
  exact ⟨filled, enter_eq_ok_iff.mpr ⟨hfits, hfilled⟩⟩

end Enter

/-! ### Building a table -/

theorem holds_of_foldlM {width : UInt8} {codewords more : List Codeword}
    {slots filled : Array WindowSlot} (h : Holds width.toNat codewords slots)
    (hfold : (more.zipIdx codewords.length).foldlM
      (fun slots (codeword, token) ↦ enter width slots codeword token) slots = .ok filled) :
    Holds width.toNat (codewords ++ more) filled := by
  induction more generalizing codewords slots with
  | nil =>
    have heq : slots = filled := Except.ok.inj hfold
    rw [List.append_nil, ← heq]
    exact h
  | cons codeword more ih =>
    simp only [List.zipIdx_cons, List.foldlM_cons] at hfold
    cases henter : enter width slots codeword codewords.length with
    | error error =>
      rw [henter] at hfold
      cases hfold
    | ok next =>
      rw [henter] at hfold
      have hnext := h.of_enter henter
      have hrest := ih hnext (by
        rw [List.length_append, List.length_singleton]
        exact hfold)
      rwa [List.append_assoc] at hrest

theorem exists_foldlM {width : UInt8} {codewords more : List Codeword} {slots : Array WindowSlot}
    (h : Holds width.toNat codewords slots) (hfits : ∀ codeword ∈ more, Fits width.toNat codeword)
    (hpart : (codewords ++ more).Pairwise fun first second ↦ Bits.Part first.path second.path) :
    ∃ filled, (more.zipIdx codewords.length).foldlM
      (fun slots (codeword, token) ↦ enter width slots codeword token) slots = .ok filled := by
  induction more generalizing codewords slots with
  | nil => exact ⟨slots, rfl⟩
  | cons codeword more ih =>
    have hapart (other : Codeword) (hother : other ∈ codewords) :
        Bits.Part other.path codeword.path :=
      (List.pairwise_append.mp hpart).2.2 other hother codeword (by simp)
    obtain ⟨next, hnext⟩ := h.exists_enter (hfits codeword (by simp)) hapart codewords.length
    obtain ⟨filled, hfilled⟩ := ih (h.of_enter hnext)
      (fun other hother ↦ hfits other (List.mem_cons_of_mem _ hother))
      (by rwa [List.append_assoc])
    refine ⟨filled, ?_⟩
    simp only [List.zipIdx_cons, List.foldlM_cons, hnext]
    rwa [List.length_append, List.length_singleton] at hfilled

/-- A table that was built holds the codewords that it was built from. -/
theorem holds_of_build {codewords : List Codeword} {width : UInt8} {table : WindowTable}
    (h : build codewords width = .ok table) :
    table.width = width ∧ Holds width.toNat codewords table.slots := by
  obtain ⟨slots, hslots, htable⟩ := Outcome.bind_eq_ok_iff.mp h
  cases htable
  exact ⟨rfl, holds_of_foldlM (holds_nil width.toNat) hslots⟩

/-- Codewords that can be told apart have a table. -/
theorem exists_build {codewords : List Codeword} (width : UInt8)
    (hfits : ∀ codeword ∈ codewords, Fits width.toNat codeword)
    (hpart : codewords.Pairwise fun first second ↦ Bits.Part first.path second.path) :
    ∃ table, build codewords width = .ok table := by
  obtain ⟨slots, hslots⟩ := exists_foldlM (holds_nil width.toNat) hfits hpart
  exact ⟨⟨width, slots⟩, Outcome.bind_eq_ok_iff.mpr ⟨slots, hslots, rfl⟩⟩

end HuffmanCoding.WindowTable
