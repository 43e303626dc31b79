/-!
# Weights

A weight counts occurrences. It never exceeds `Weight.limit`, the largest number of 64 binary
digits: a sum that would is the limit itself (`toNat_add`). So sums of weights do not depend on the
order of the summands.
-/

set_option autoImplicit false
set_option relaxedAutoImplicit false

namespace HuffmanCoding

def Weight.limit : Nat := UInt64.size - 1

/-- A number of occurrences, at most `Weight.limit`. -/
@[ext] structure Weight where
  toNat : Nat
  toNat_le : toNat ≤ Weight.limit
  deriving DecidableEq

namespace Weight

/-- The weight closest to a number. -/
def ofNat (value : Nat) : Weight :=
  ⟨min value limit, Nat.min_le_right value limit⟩

instance (value : Nat) : OfNat Weight value := ⟨ofNat value⟩

/-- Addition stops at the limit. -/
instance : Add Weight := ⟨fun first second ↦ ofNat (first.toNat + second.toNat)⟩

instance : LE Weight := ⟨fun first second ↦ first.toNat ≤ second.toNat⟩

instance (first second : Weight) : Decidable (first ≤ second) :=
  inferInstanceAs (Decidable (first.toNat ≤ second.toNat))

instance : ToString Weight := ⟨fun weight ↦ toString weight.toNat⟩

def sum (weights : List Weight) : Weight :=
  weights.foldl (· + ·) 0

@[simp] theorem toNat_ofNat (value : Nat) : (ofNat value).toNat = min value limit := rfl

@[simp] theorem toNat_add (first second : Weight) :
    (first + second).toNat = min (first.toNat + second.toNat) limit := rfl

@[simp] theorem toNat_zero : (0 : Weight).toNat = 0 := rfl

@[simp] theorem ofNat_toNat (weight : Weight) : ofNat weight.toNat = weight :=
  Weight.ext (Nat.min_eq_left weight.toNat_le)

theorem le_iff (first second : Weight) : first ≤ second ↔ first.toNat ≤ second.toNat := Iff.rfl

theorem add_comm (first second : Weight) : first + second = second + first := by
  apply Weight.ext
  simp [Nat.add_comm]

theorem add_assoc (first second third : Weight) :
    first + second + third = first + (second + third) := by
  apply Weight.ext
  simp only [toNat_add]
  omega

end Weight

end HuffmanCoding
