import HuffmanCoding.Proofs.Kraft
import HuffmanCoding.Proofs.WindowTable

/-!
# Windows that are covered

A window table can be built exactly for codewords that fit into its windows and are apart. It then
tells for each window which codeword begins it, and how many windows are covered is a matter of the
lengths alone (`build_isExact`).

The count is followed through the filling of the table. A slot is put only where the window had been
vacant, so each step covers one window more (`countP_of_occupy`), a codeword covers as many as it
begins (`countP_of_enter`), and all codewords together cover the sum of these
(`takenCount_of_build`). Divided by the number of windows this is their Kraft sum, so nothing stays
vacant exactly if the Kraft sum is one (`sum_windowCount_eq_iff`).
-/

set_option autoImplicit false
set_option relaxedAutoImplicit false

namespace HuffmanCoding.WindowTable

/-! ### How many windows are covered -/

/-- A slot that is put into a vacant window covers one window more. -/
theorem countP_setIfInBounds {slots : Array WindowSlot} {slot : WindowSlot} {window : ℕ}
    (hwindow : window < slots.size) (hvacant : (slots.getD window .vacant).isTaken = false)
    (hslot : slot.isTaken = true) :
    (slots.setIfInBounds window slot).countP (·.isTaken) = slots.countP (·.isTaken) + 1 := by
  have hbefore : slots[window].isTaken = false := by
    rwa [Array.getD_eq_getD_getElem?, Array.getElem?_eq_getElem hwindow, Option.getD_some]
      at hvacant
  rw [Array.setIfInBounds, dif_pos hwindow, Array.countP_set, hbefore, hslot]
  simp

/-- Filling a range covers as many windows as there are in it. -/
theorem countP_of_occupy {slot : WindowSlot} {count window : ℕ} {slots filled : Array WindowSlot}
    (h : occupy slot count window slots = .ok filled) (hslot : slot.isTaken = true)
    (hroom : window + count ≤ slots.size) :
    filled.countP (·.isTaken) = slots.countP (·.isTaken) + count := by
  induction count generalizing window slots with
  | zero =>
    cases h
    rfl
  | succ count ih =>
    unfold occupy at h
    split_ifs at h with htaken
    have hrest := ih h (by rw [Array.size_setIfInBounds]; omega)
    rw [hrest, countP_setIfInBounds (by omega) (Bool.eq_false_iff.mpr htaken) hslot]
    omega

section Enter

variable {width : UInt8} {slots filled : Array WindowSlot} (hsize : slots.size = 2 ^ width.toNat)

include hsize

/-- A codeword covers the windows that it begins, and adds no window. -/
theorem countP_of_enter {codeword : Codeword} {token : ℕ}
    (h : enter width slots codeword token = .ok filled) :
    filled.size = 2 ^ width.toNat ∧
      filled.countP (·.isTaken) = slots.countP (·.isTaken) + windowCount width.toNat codeword := by
  obtain ⟨hfits, hoccupy⟩ := enter_eq_ok_iff.mp h
  have htaken : WindowSlot.isTaken ⟨UInt32.ofNat token, codeword.length⟩ = true := by
    rw [WindowSlot.isTaken, decide_eq_true_eq, UInt8.lt_iff_toNat_lt]
    exact hfits.length_pos
  refine ⟨(occupied_of_occupy hoccupy).size_eq.trans hsize, ?_⟩
  exact countP_of_occupy hoccupy htaken (hsize ▸ hfits.firstWindow_add_le)

/-- Codewords that are entered one after the other cover the windows that each of them begins. -/
theorem countP_of_foldlM {codewords : List Codeword} {start : ℕ}
    (h : (codewords.zipIdx start).foldlM
      (fun slots (codeword, token) ↦ enter width slots codeword token) slots = .ok filled) :
    filled.countP (·.isTaken) =
      slots.countP (·.isTaken) + (codewords.map (windowCount width.toNat)).sum := by
  induction codewords generalizing slots start with
  | nil =>
    cases h
    rfl
  | cons codeword codewords ih =>
    rw [List.zipIdx_cons, List.foldlM_cons, Outcome.bind_eq_ok_iff] at h
    obtain ⟨next, henter, hrest⟩ := h
    obtain ⟨hnext, hcount⟩ := countP_of_enter hsize henter
    rw [ih hnext hrest, hcount, List.map_cons, List.sum_cons, Nat.add_assoc]

end Enter

/-- A table has as many taken slots as its codewords begin windows. -/
theorem takenCount_of_build {codewords : List Codeword} {width : UInt8} {table : WindowTable}
    (h : build codewords width = .ok table) :
    table.takenCount = (codewords.map (windowCount width.toNat)).sum := by
  obtain ⟨slots, hslots, hpure⟩ := Outcome.bind_eq_ok_iff.mp h
  cases hpure
  have hvacant : (Array.replicate (1 <<< width.toNat) WindowSlot.vacant).countP (·.isTaken) = 0 :=
    Array.countP_replicate.trans (if_neg (by decide))
  have hcount := countP_of_foldlM (by rw [Array.size_replicate, Nat.one_shiftLeft]) hslots
  rwa [hvacant, Nat.zero_add] at hcount

/-- A codeword with `spare` bits less than a window begins `2 ^ spare` windows. -/
theorem windowCount_eq (width : ℕ) :
    windowCount width = fun codeword ↦ 2 ^ (width - codeword.length.toNat) :=
  funext fun _ ↦ Nat.one_shiftLeft _

/-- The codewords begin all windows exactly if they take up all bit sequences. -/
theorem sum_windowCount_eq_iff {codewords : List Codeword} {width : ℕ}
    (hfits : ∀ codeword ∈ codewords, Fits width codeword) :
    (codewords.map (windowCount width)).sum = 2 ^ width ↔
      kraftSum (codewords.map (·.length.toNat)) = 1 := by
  have hlengths : ∀ length ∈ codewords.map (·.length.toNat), length ≤ width := by
    intro length hlength
    obtain ⟨codeword, hmem, rfl⟩ := List.mem_map.mp hlength
    exact (hfits codeword hmem).length_le
  have hpow : (2 : ℚ) ^ width ≠ 0 := by positivity
  have hscaled := kraftSum_mul_two_pow hlengths
  rw [List.map_map] at hscaled
  rw [windowCount_eq]
  constructor
  · intro hsum
    refine mul_right_cancel₀ hpow (hscaled.trans ?_)
    rw [one_mul]
    exact_mod_cast hsum
  · intro hone
    rw [hone, one_mul] at hscaled
    exact_mod_cast hscaled.symm

/-! ### What a table says -/

/-- The table says of each window which codeword begins it, and all windows are covered exactly if
the codewords take up all bit sequences. -/
structure Resolves (table : WindowTable) (codewords : List Codeword) : Prop where
  size_eq : table.size = 2 ^ table.width.toNat
  lookup_eq : ∀ token codeword window, codewords[token]? = some codeword →
    window < 2 ^ table.width.toNat →
    window >>> (table.width.toNat - codeword.length.toNat) = codeword.bits.toNat →
      (table.lookup window).token.toNat = token ∧
        (table.lookup window).length = codeword.length
  lookup_eq_vacant : ∀ window < 2 ^ table.width.toNat, (∀ codeword ∈ codewords,
    window >>> (table.width.toNat - codeword.length.toNat) ≠ codeword.bits.toNat) →
      table.lookup window = .vacant
  takenCount_eq : table.takenCount =
    (codewords.map fun codeword ↦ 2 ^ (table.width.toNat - codeword.length.toNat)).sum
  takenCount_eq_iff : table.takenCount = 2 ^ table.width.toNat ↔
    kraftSum (codewords.map (·.length.toNat)) = 1

/-- A table for windows of up to 32 bits resolves the codewords that it was built from. -/
theorem resolves_of_build {codewords : List Codeword} {width : UInt8} {table : WindowTable}
    (hwidth : width.toNat ≤ 32) (h : build codewords width = .ok table) :
    table.Resolves codewords := by
  obtain ⟨rfl, hholds⟩ := holds_of_build h
  have hcount := takenCount_of_build h
  have hbegins (codeword : Codeword) (hmem : codeword ∈ codewords) (window : ℕ)
      (hwindow : window < 2 ^ table.width.toNat) : Begins table.width.toNat codeword window ↔
        window >>> (table.width.toNat - codeword.length.toNat) = codeword.bits.toNat :=
    (hholds.fits codeword hmem).isTight.path_prefix_iff (hholds.fits codeword hmem).length_le
      hwindow
  refine ⟨hholds.size_eq, ?_, ?_, ?_, ?_⟩
  · intro token codeword window htoken hwindow hdigits
    have hmem := List.mem_of_getElem? htoken
    have hslot : table.lookup window = ⟨UInt32.ofNat token, codeword.length⟩ :=
      hholds.slot_eq htoken window hwindow ((hbegins codeword hmem window hwindow).mpr hdigits)
    have hsmall : token < UInt32.size := by
      obtain ⟨hlt, _⟩ := List.getElem?_eq_some_iff.mp htoken
      calc token < codewords.length := hlt
        _ ≤ 2 ^ table.width.toNat := hholds.length_le
        _ ≤ 2 ^ 32 := Nat.pow_le_pow_right (by decide) hwidth
    rw [hslot]
    exact ⟨UInt32.toNat_ofNat_of_lt' hsmall, rfl⟩
  · intro window hwindow hnone
    exact hholds.vacant window hwindow fun codeword hmem hbegun ↦
      hnone codeword hmem ((hbegins codeword hmem window hwindow).mp hbegun)
  · rw [hcount, windowCount_eq]
  · rw [hcount]
    exact sum_windowCount_eq_iff hholds.fits

/-- A window table of up to 24 bits is built exactly for codewords that have a bit, fit into a
window, set no digit above their length and do not begin each other, and it says of each window
which of them begins it. -/
theorem build_isExact (codewords : List Codeword) (width : UInt8) (hwidth : width ≤ 24) :
    ((∃ table, build codewords width = .ok table) ↔
      (∀ codeword ∈ codewords, Fits width.toNat codeword) ∧ Codeword.AreApart codewords) ∧
    ∀ table, build codewords width = .ok table →
      table.width = width ∧ table.Resolves codewords := by
  have hbound : width.toNat ≤ 32 := (UInt8.le_iff_toNat_le.mp hwidth).trans (by decide)
  rw [Codeword.areApart_iff]
  refine ⟨⟨?_, fun ⟨hfits, hpart⟩ ↦ exists_build width hfits hpart⟩, fun table htable ↦ ?_⟩
  · rintro ⟨table, htable⟩
    obtain ⟨_, hholds⟩ := holds_of_build htable
    exact ⟨hholds.fits, hholds.part⟩
  · exact ⟨(holds_of_build htable).1, resolves_of_build hbound htable⟩

/-- Two codewords in windows of three bits cover six of them, and with one that begins the other
there is no table. -/
theorem build_isExact_of_two_codewords :
    (3 : UInt8) ≤ 24 ∧ (¬ ∃ table, build [⟨2, 2⟩, ⟨1, 1⟩] 3 = .ok table) ∧
    ∃ table, build [⟨2, 2⟩, ⟨0, 1⟩] 3 = .ok table ∧ table.Resolves [⟨2, 2⟩, ⟨0, 1⟩] ∧
      ((table.lookup 5).token.toNat = 0 ∧ (table.lookup 5).length = 2) ∧
      table.lookup 6 = .vacant ∧ table.takenCount = 6 := by
  have hclash := (build_isExact [⟨2, 2⟩, ⟨1, 1⟩] 3 (by decide)).1
  obtain ⟨hbuilt, hresolves⟩ := build_isExact [⟨2, 2⟩, ⟨0, 1⟩] 3 (by decide)
  have hfits : ∀ codeword ∈ [(⟨2, 2⟩ : Codeword), ⟨0, 1⟩], Fits (3 : UInt8).toNat codeword := by
    intro codeword hmem
    rcases List.mem_pair.mp hmem with rfl | rfl
    · exact ⟨by decide, by decide, by decide⟩
    · exact ⟨by decide, by decide, by decide⟩
  obtain ⟨table, htable⟩ := hbuilt.mpr ⟨hfits, Codeword.areApart_iff.mpr (by decide)⟩
  obtain ⟨hwidth, htable'⟩ := hresolves table htable
  refine ⟨by decide, fun hnone ↦ ?_, table, htable, htable', ?_, ?_, ?_⟩
  · exact absurd (Codeword.areApart_iff.mp (hclash.mp hnone).2) (by decide)
  · exact htable'.lookup_eq 0 ⟨2, 2⟩ 5 rfl (by rw [hwidth]; decide) (by rw [hwidth]; decide)
  · exact htable'.lookup_eq_vacant 6 (by rw [hwidth]; decide) (by rw [hwidth]; decide)
  · rw [htable'.takenCount_eq, hwidth]
    decide

end HuffmanCoding.WindowTable
