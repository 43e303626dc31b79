import HuffmanCoding.Codeword
import HuffmanCoding.Proofs.Bits

/-!
# Codewords and their paths

A codeword is tight if no digit is set above its length. Then its path begins a window if its number
does (`IsTight.path_prefix_iff`).
Extending a codeword keeps it tight, so a codeword that was extended bit by bit from the empty one
is tight and spells these bits (`isTight_empty_extend`, `path_empty_extend`).

Codewords are apart if none of them begins one at another place of their list. As this is said of
any two places, it is said of each pair in the list (`areApart_iff`).
-/

set_option autoImplicit false
set_option relaxedAutoImplicit false

namespace HuffmanCoding.Codeword

/-- No digit of the codeword is set above its length. -/
def IsTight (codeword : Codeword) : Prop :=
  codeword.bits.toNat < 2 ^ codeword.length.toNat

instance (codeword : Codeword) : Decidable codeword.IsTight :=
  inferInstanceAs (Decidable (_ < _))

@[simp] theorem length_path (codeword : Codeword) : codeword.path.length = codeword.length.toNat :=
  Bits.length_ofNat _ _

/-- A codeword without bits has the empty path. -/
theorem path_eq_nil_iff {codeword : Codeword} : codeword.path = [] ↔ codeword.length.toNat = 0 := by
  rw [← length_path, List.length_eq_zero_iff]

/-- The path of a tight codeword begins a window if its number is left when the window is
shifted. -/
theorem IsTight.path_prefix_iff {codeword : Codeword} (h : codeword.IsTight) {width window : ℕ}
    (hlength : codeword.length.toNat ≤ width) (hwindow : window < 2 ^ width) :
    codeword.path <+: Bits.ofNat width window ↔
      window >>> (width - codeword.length.toNat) = codeword.bits.toNat :=
  Bits.ofNat_prefix_ofNat_iff hlength h hwindow

/-! ### Lists of codewords -/

/-- No codeword in the list begins one at another place, and in particular none is there twice. -/
def AreApart (codewords : List Codeword) : Prop :=
  ∀ (place other : ℕ) (first second : Codeword), codewords[place]? = some first →
    codewords[other]? = some second → place ≠ other → ¬ first.path <+: second.path

/-- Codewords are apart if the paths of any two of them part. -/
theorem areApart_iff {codewords : List Codeword} : AreApart codewords ↔
    codewords.Pairwise fun first second ↦ Bits.Part first.path second.path := by
  rw [List.pairwise_iff_getElem]
  constructor
  · intro h place other hplace hother hlt
    have hfirst := List.getElem?_eq_getElem hplace
    have hsecond := List.getElem?_eq_getElem hother
    exact ⟨h place other _ _ hfirst hsecond hlt.ne, h other place _ _ hsecond hfirst hlt.ne'⟩
  · intro h place other first second hfirst hsecond hne
    obtain ⟨hplace, rfl⟩ := List.getElem?_eq_some_iff.mp hfirst
    obtain ⟨hother, rfl⟩ := List.getElem?_eq_some_iff.mp hsecond
    rcases Nat.lt_or_gt_of_ne hne with hlt | hgt
    · exact (h place other hplace hother hlt).1
    · exact (h other place hother hplace hgt).2

/-! ### Extending codewords -/

theorem length_push {codeword : Codeword} (bit : Bool) (hroom : codeword.length.toNat < 32) :
    (codeword.push bit).length.toNat = codeword.length.toNat + 1 := by
  rw [push, UInt8.toNat_add, UInt8.toNat_one]
  omega

theorem toNat_bits_push (codeword : Codeword) (bit : Bool) :
    (codeword.push bit).bits.toNat = (codeword.bits.toNat <<< 1) % 2 ^ 32 ||| bit.toNat := by
  cases bit <;> simp [push, UInt32.toNat_or, UInt32.toNat_shiftLeft]

/-- Extending a codeword sets no digit above the new length. -/
theorem IsTight.push {codeword : Codeword} (h : codeword.IsTight) (bit : Bool)
    (hroom : codeword.length.toNat < 32) : (codeword.push bit).IsTight := by
  unfold IsTight at h ⊢
  rw [length_push bit hroom, toNat_bits_push]
  refine Nat.or_lt_two_pow ?_ ?_
  · refine (Nat.mod_le _ _).trans_lt ?_
    rw [Nat.shiftLeft_eq, pow_one, pow_succ]
    omega
  · have hbit := bit.toNat_lt
    have hpow : 2 ≤ 2 ^ (codeword.length.toNat + 1) := by
      rw [pow_succ]
      have := Nat.two_pow_pos codeword.length.toNat
      omega
    exact hbit.trans_le hpow

/-- The codeword that is extended by the bits of a way, one after the other. -/
def extend (codeword : Codeword) (way : Bits) : Codeword :=
  way.foldl push codeword

@[simp] theorem extend_nil (codeword : Codeword) : codeword.extend [] = codeword := rfl

@[simp] theorem extend_cons (codeword : Codeword) (bit : Bool) (way : Bits) :
    codeword.extend (bit :: way) = (codeword.push bit).extend way := rfl

/-- An extended codeword is tight, and its path goes on along the way, as long as its number has
room for all of it. -/
theorem IsTight.extend {codeword : Codeword} (h : codeword.IsTight) {way : Bits}
    (hroom : codeword.length.toNat + way.length ≤ 32) :
    (codeword.extend way).IsTight ∧ (codeword.extend way).path = codeword.path ++ way := by
  induction way generalizing codeword with
  | nil => exact ⟨h, (List.append_nil _).symm⟩
  | cons bit way ih =>
    rw [List.length_cons] at hroom
    have hbit : codeword.length.toNat < 32 := by omega
    obtain ⟨htight, hpath⟩ := ih (h.push bit hbit) (by rw [length_push bit hbit]; omega)
    refine ⟨htight, ?_⟩
    rw [extend_cons, hpath, path_push codeword bit hbit, List.append_assoc]
    rfl

theorem isTight_empty : empty.IsTight := by
  unfold IsTight
  decide

/-- The codeword of a way that is short enough spells the way. -/
theorem path_empty_extend {way : Bits} (h : way.length ≤ 32) : (empty.extend way).path = way :=
  (isTight_empty.extend (by simpa [empty] using h)).2

theorem isTight_empty_extend {way : Bits} (h : way.length ≤ 32) : (empty.extend way).IsTight :=
  (isTight_empty.extend (by simpa [empty] using h)).1

theorem length_empty_extend {way : Bits} (h : way.length ≤ 32) :
    (empty.extend way).length.toNat = way.length := by
  rw [← length_path, path_empty_extend h]

end HuffmanCoding.Codeword
