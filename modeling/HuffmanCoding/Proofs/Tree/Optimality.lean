import HuffmanCoding.Proofs.Tree.Merging
import Mathlib.Data.List.Perm.Basic

/-!
# The tree of least weighted depth

The cost of a tree is the sum over its leaves of the weight times the depth. Joining two trees makes
every leaf of theirs one edge deeper, so it adds their weights to the cost (`cost_join`).

Lengths are given out to items of some weights. Without more cost, and with the same Kraft sum, the
lightest item can be given the greatest of the lengths (`exists_longest_to_lightest`), and then the
second lightest item the same length (`exists_join_lightest`); the two are as good as one item that
is one bit shorter and as heavy as both. This is the step by which `Merges.cost_le` follows the
joining of the two lightest trees: no lengths whose Kraft sum is at most one cost less than the
tree.
-/

set_option autoImplicit false
set_option relaxedAutoImplicit false

namespace HuffmanCoding

/-! ### Lengths for weighted items -/

section Items

variable {α : Type} {weight : α → ℕ}

/-- The sum over some items of the weight times the length given to the item. -/
def weightedSum (weight : α → ℕ) (assigned : List (α × ℕ)) : ℕ :=
  (assigned.map fun entry ↦ weight entry.1 * entry.2).sum

@[simp] theorem weightedSum_cons (item : α) (length : ℕ) (assigned : List (α × ℕ)) :
    weightedSum weight ((item, length) :: assigned) =
      weight item * length + weightedSum weight assigned := by
  simp [weightedSum]

theorem weightedSum_perm {first second : List (α × ℕ)} (h : first.Perm second) :
    weightedSum weight first = weightedSum weight second :=
  (h.map _).sum_eq

/-- The lengths can be given out so that an item of least weight gets the greatest of them. -/
theorem exists_longest_to_lightest (item : α) (length : ℕ) (others : List (α × ℕ))
    (hlightest : ∀ other ∈ others, weight item ≤ weight other.1) :
    ∃ longest others', others'.map (·.1) = others.map (·.1) ∧
      (longest :: others'.map (·.2)).Perm (length :: others.map (·.2)) ∧
      (∀ shorter ∈ others'.map (·.2), shorter ≤ longest) ∧
      weightedSum weight ((item, longest) :: others') ≤
        weightedSum weight ((item, length) :: others) := by
  induction others with
  | nil => exact ⟨length, [], rfl, List.Perm.refl _, by simp, le_rfl⟩
  | cons other others ih =>
    obtain ⟨first, firstLength⟩ := other
    obtain ⟨longest, others', hitems, hlengths, hgreatest, hcost⟩ :=
      ih fun other hother ↦ hlightest other (List.mem_cons_of_mem _ hother)
    have hfirst : weight item ≤ weight first := hlightest (first, firstLength) (by simp)
    have hswap : (firstLength :: longest :: others'.map (·.2)).Perm
        (length :: firstLength :: others.map (·.2)) :=
      (hlengths.cons firstLength).trans (List.Perm.swap _ _ _)
    simp only [weightedSum_cons] at hcost ⊢
    by_cases hle : firstLength ≤ longest
    · refine ⟨longest, (first, firstLength) :: others', by simp [hitems], ?_, ?_, ?_⟩
      · exact (List.Perm.swap _ _ _).trans hswap
      · intro shorter hshorter
        rcases List.mem_cons.mp hshorter with rfl | hbehind
        · exact hle
        · exact hgreatest shorter hbehind
      · rw [weightedSum_cons]
        omega
    · have hlt : longest < firstLength := Nat.lt_of_not_le hle
      refine ⟨firstLength, (first, longest) :: others', by simp [hitems], hswap, ?_, ?_⟩
      · intro shorter hshorter
        rcases List.mem_cons.mp hshorter with rfl | hbehind
        · exact hlt.le
        · exact (hgreatest shorter hbehind).trans hlt.le
      · have hexchange : weight item * firstLength + weight first * longest ≤
            weight item * longest + weight first * firstLength := by
          nlinarith
        rw [weightedSum_cons]
        omega

/-- What holds of the items of a list holds whatever lengths they have. -/
theorem forall_of_map_fst_eq (property : α → Prop) {first second : List (α × ℕ)}
    (hitems : second.map (·.1) = first.map (·.1)) (h : ∀ entry ∈ first, property entry.1) :
    ∀ entry ∈ second, property entry.1 := by
  intro entry hentry
  have hmem : entry.1 ∈ first.map (·.1) := hitems ▸ List.mem_map_of_mem hentry
  obtain ⟨other, hother, heq⟩ := List.mem_map.mp hmem
  exact heq ▸ h other hother

/-- Two items of least weight are as good as one item of the weight of both with a length that is
one bit shorter. -/
theorem exists_join_lightest {first second : α} {firstLength secondLength : ℕ}
    {others : List (α × ℕ)} (hfirst : weight first ≤ weight second)
    (hsecond : ∀ other ∈ others, weight second ≤ weight other.1)
    (hkraft : kraftSum (firstLength :: secondLength :: others.map (·.2)) ≤ 1) :
    ∃ length others', others'.map (·.1) = others.map (·.1) ∧
      kraftSum (length :: others'.map (·.2)) ≤ 1 ∧
      (weight first + weight second) * (length + 1) + weightedSum weight others' ≤
        weightedSum weight ((first, firstLength) :: (second, secondLength) :: others) := by
  obtain ⟨longest, others₁, hitems₁, hlengths₁, hgreatest₁, hcost₁⟩ :=
    exists_longest_to_lightest first firstLength ((second, secondLength) :: others) (by
      intro other hother
      rcases List.mem_cons.mp hother with rfl | hbehind
      · exact hfirst
      · exact hfirst.trans (hsecond other hbehind))
  obtain ⟨⟨item, middle⟩, others₂, rfl⟩ :=
    List.exists_cons_of_ne_nil (l := others₁) (by rintro rfl; simp at hitems₁)
  obtain ⟨hitem, hitems₂⟩ : item = second ∧ others₂.map (·.1) = others.map (·.1) := by
    simpa using hitems₁
  subst item
  obtain ⟨next, others₃, hitems₃, hlengths₃, hgreatest₃, hcost₃⟩ :=
    exists_longest_to_lightest second middle others₂
      (forall_of_map_fst_eq (weight second ≤ weight ·) hitems₂ hsecond)
  have hnext : next ≤ longest :=
    hgreatest₁ next (hlengths₃.mem_iff.mp (List.mem_cons_self ..))
  -- What the lightest item takes up makes room for a codeword that is as long as the next one.
  have hroom : kraftSum (next :: others₃.map (·.2)) < 1 := by
    have hsame := kraftSum_perm hlengths₁
    have hpos := kraftShare_pos longest
    simp only [List.map_cons, kraftSum_cons] at hsame hkraft
    rw [kraftSum_perm hlengths₃, kraftSum_cons]
    linarith
  obtain ⟨length, rfl, hshort⟩ := exists_shorter_of_kraftSum_lt_one hgreatest₃ hroom
  refine ⟨length, others₃, hitems₃.trans hitems₂, hshort, ?_⟩
  have hshorter : weight first * (length + 1) ≤ weight first * longest :=
    Nat.mul_le_mul_left _ hnext
  simp only [weightedSum_cons] at hcost₁ hcost₃ ⊢
  rw [Nat.add_mul]
  omega

end Items

namespace Tree

variable {S : Type}

/-! ### Cost -/

/-- The weights of all leaves, without any limit. -/
def mass (tree : Tree S) : ℕ :=
  (tree.contents.map (·.weight.toNat)).sum

/-- The sum over all leaves of the weight times the depth. -/
def cost (tree : Tree S) : ℕ :=
  weightedSum (·.weight.toNat) tree.leaves

@[simp] theorem mass_leaf (position : ℕ) (content : Leaf S) :
    (leaf position content).mass = content.weight.toNat := by
  simp [mass]

@[simp] theorem mass_join (position : ℕ) (left right : Tree S) :
    (join position left right).mass = left.mass + right.mass := by
  simp [mass]

/-- The weight of joined trees is the weight of their leaves, as long as it is a weight. -/
theorem weight_join {position : ℕ} {left right : Tree S} (hleft : left.weight.toNat = left.mass)
    (hright : right.weight.toNat = right.mass) (hlimit : left.mass + right.mass ≤ Weight.limit) :
    (join position left right).weight.toNat = (join position left right).mass := by
  have hsum : (join position left right).weight.toNat =
      min (left.weight.toNat + right.weight.toNat) Weight.limit := rfl
  rw [hsum, hleft, hright, mass_join]
  exact Nat.min_eq_left hlimit

@[simp] theorem cost_leaf (position : ℕ) (content : Leaf S) : (leaf position content).cost = 0 := by
  simp [cost, weightedSum]

theorem weightedSum_succ (entries : List (Leaf S × ℕ)) :
    weightedSum (·.weight.toNat) (entries.map fun entry ↦ (entry.1, entry.2 + 1)) =
      weightedSum (·.weight.toNat) entries + ((entries.map (·.1)).map (·.weight.toNat)).sum := by
  induction entries with
  | nil => rfl
  | cons entry entries ih =>
    obtain ⟨content, length⟩ := entry
    simp only [List.map_cons, weightedSum_cons, List.sum_cons, ih]
    ring

/-- Joining two trees adds their weights to the cost. -/
theorem cost_join (position : ℕ) (left right : Tree S) :
    (join position left right).cost = left.cost + right.cost + (left.mass + right.mass) := by
  have happend (first second : List (Leaf S × ℕ)) :
      weightedSum (·.weight.toNat) (first ++ second) =
        weightedSum (·.weight.toNat) first + weightedSum (·.weight.toNat) second := by
    simp [weightedSum]
  rw [cost, join, leaves_node, happend, weightedSum_succ, weightedSum_succ]
  simp only [cost, mass, contents]
  omega

/-! ### Optimality -/

/-- A list that spells a permutation can itself be permuted. -/
theorem exists_perm_map_eq {α β : Type} (f : α → β) {source : List α} {target : List β}
    (h : (source.map f).Perm target) :
    ∃ permuted, source.Perm permuted ∧ permuted.map f = target := by
  have hcomp :
      Relation.Comp (List.Forall₂ fun item image ↦ f item = image) List.Perm source target :=
    ⟨source.map f, by simp [List.forall₂_map_right_iff], h⟩
  rw [List.forall₂_comp_perm_eq_perm_comp_forall₂] at hcomp
  obtain ⟨permuted, hperm, hforall⟩ := hcomp
  refine ⟨permuted, hperm, ?_⟩
  rw [← List.forall₂_eq_eq_eq, List.forall₂_map_left_iff]
  exact hforall

/-- However lengths whose Kraft sum is at most one are given out to the trees that are merged, the
tree that arises from them costs no more. -/
theorem Merges.cost_le {trees : List (Tree S)} {tree : Tree S} (h : Merges trees tree)
    (hexact : ∀ other ∈ trees, other.weight.toNat = other.mass)
    (hlimit : (trees.map mass).sum ≤ Weight.limit) (assigned : List (Tree S × ℕ))
    (hassigned : (assigned.map (·.1)).Perm trees) (hkraft : kraftSum (assigned.map (·.2)) ≤ 1) :
    tree.cost ≤ (trees.map cost).sum + weightedSum mass assigned := by
  induction h generalizing assigned with
  | lone tree => simp
  | @join trees rest left right tree position hperm hleft hright hmerges ih =>
    obtain ⟨permuted, hpermuted, hitems⟩ := exists_perm_map_eq _ (hassigned.trans hperm)
    obtain ⟨⟨first, firstLength⟩, tail, rfl⟩ :=
      List.exists_cons_of_ne_nil (l := permuted) (by rintro rfl; simp at hitems)
    obtain ⟨⟨second, secondLength⟩, others, rfl⟩ :=
      List.exists_cons_of_ne_nil (l := tail) (by rintro rfl; simp at hitems)
    obtain ⟨hfirst, hsecond, hothers⟩ :
        first = left ∧ second = right ∧ others.map (·.1) = rest := by simpa using hitems
    subst first second
    have hmass (other : Tree S) (hother : other ∈ left :: right :: rest) :
        other.weight.toNat = other.mass := hexact other (hperm.mem_iff.mpr hother)
    have hle : left.mass ≤ right.mass := by
      rw [← hmass left (by simp), ← hmass right (by simp)]
      exact hleft right (by simp)
    have hle' : ∀ entry ∈ others, right.mass ≤ entry.1.mass := by
      intro entry hentry
      have hmem : entry.1 ∈ rest := hothers ▸ List.mem_map_of_mem hentry
      rw [← hmass right (by simp), ← hmass entry.1 (by simp [hmem])]
      exact hright entry.1 hmem
    rw [(hperm.map mass).sum_eq, List.map_cons, List.map_cons, List.sum_cons, List.sum_cons]
      at hlimit
    rw [kraftSum_perm (hpermuted.map (·.2))] at hkraft
    obtain ⟨length, others', hitems', hkraft', hcost⟩ := exists_join_lightest hle hle' hkraft
    have hjoined : ∀ other ∈ Tree.join position left right :: rest,
        other.weight.toNat = other.mass := by
      intro other hother
      rcases List.mem_cons.mp hother with rfl | hold
      · exact weight_join (hmass left (by simp)) (hmass right (by simp)) (by omega)
      · exact hmass other (by simp [hold])
    have hbelow := ih hjoined (by
        rw [List.map_cons, List.sum_cons, mass_join]
        omega)
      ((Tree.join position left right, length) :: others')
      (by rw [List.map_cons, hitems', hothers]) (by simpa using hkraft')
    rw [(hperm.map cost).sum_eq, weightedSum_perm hpermuted]
    simp only [List.map_cons, List.sum_cons, weightedSum_cons, cost_join, mass_join]
      at hbelow hcost ⊢
    rw [Nat.mul_add, Nat.mul_one] at hcost
    omega

/-- The tree of some leaves costs no more than any lengths for them whose Kraft sum is at most
one. -/
theorem cost_le_of_ofLeaves? {contents : List (Leaf S)} {tree : Tree S}
    (h : ofLeaves? contents = some tree)
    (hlimit : (contents.map (·.weight.toNat)).sum ≤ Weight.limit) (assigned : List (Leaf S × ℕ))
    (hassigned : (assigned.map (·.1)).Perm contents) (hkraft : kraftSum (assigned.map (·.2)) ≤ 1) :
    tree.cost ≤ weightedSum (·.weight.toNat) assigned := by
  obtain ⟨permuted, hpermuted, hitems⟩ := exists_perm_map_eq _ hassigned
  let planted (entry : (Leaf S × ℕ) × ℕ) : Tree S × ℕ := (leaf entry.2 entry.1.1, entry.1.2)
  have hfst : (permuted.zipIdx.map planted).map (·.1) =
      contents.zipIdx.map fun entry ↦ leaf entry.2 entry.1 := by
    rw [← hitems, List.zipIdx_map, List.map_map, List.map_map]
    rfl
  have hsnd : (permuted.zipIdx.map planted).map (·.2) = permuted.map (·.2) := by
    rw [List.map_map]
    conv_rhs => rw [← List.zipIdx_map_fst 0 permuted, List.map_map]
    rfl
  have hsum : weightedSum mass (permuted.zipIdx.map planted) =
      weightedSum (·.weight.toNat) permuted := by
    simp only [weightedSum, List.map_map]
    conv_rhs => rw [← List.zipIdx_map_fst 0 permuted, List.map_map]
    simp [Function.comp_def, planted]
  have hmass : (contents.zipIdx.map fun entry ↦ leaf entry.2 entry.1).map mass =
      contents.map (·.weight.toNat) := by
    rw [List.map_map]
    conv_rhs => rw [← List.zipIdx_map_fst 0 contents, List.map_map]
    simp [Function.comp_def]
  have hzero : ((contents.zipIdx.map fun entry ↦ leaf entry.2 entry.1).map
      cost).sum = 0 := by
    simp [Function.comp_def]
  have hbound := (merges_of_ofLeaves? h).cost_le
    (by
      intro other hother
      obtain ⟨entry, _, rfl⟩ := List.mem_map.mp hother
      rw [mass_leaf]
      rfl)
    (by rw [hmass]; exact hlimit) (permuted.zipIdx.map planted) (by rw [hfst])
    (by rw [hsnd, ← kraftSum_perm (hpermuted.map (·.2))]; exact hkraft)
  rw [hzero, hsum, Nat.zero_add, ← weightedSum_perm hpermuted] at hbound
  exact hbound

/-- The tree of some leaves costs no more than any lengths for their tokens whose Kraft sum is at
most one. -/
theorem cost_le_sum_lengths {contents : List (Leaf S)} {tree : Tree S}
    (h : ofLeaves? contents = some tree)
    (hlimit : (contents.map (·.weight.toNat)).sum ≤ Weight.limit) (lengths : Token S → ℕ)
    (hkraft : kraftSum (contents.map fun content ↦ lengths content.token) ≤ 1) :
    tree.cost ≤ (contents.map fun content ↦ content.weight.toNat * lengths content.token).sum := by
  have hitems : (contents.map fun content ↦ (content, lengths content.token)).map (·.1) =
      contents := by
    rw [List.map_map]
    exact List.map_id _
  have hcost := cost_le_of_ofLeaves? h hlimit
    (contents.map fun content ↦ (content, lengths content.token)) (by rw [hitems])
    (by rwa [List.map_map])
  rwa [weightedSum, List.map_map] at hcost

end Tree

end HuffmanCoding
