import HuffmanCoding.Proofs.Tree.Paths
import HuffmanCoding.Tree.Merge

/-!
# Merging the two lightest trees

`MergesInTurn` says what the construction of the tree of least weighted depth comes to: as long as
there are at least two trees, the two that precede all others by weight and position are joined. It
says nothing of queues, and there is only one tree that arises in this way (`MergesInTurn.unique`).
For the weighted depth it is enough that no tree is lighter than the two that are joined (`Merges`).

The two queues do just that. Both are in the order in which trees are taken, and every merged tree
is at most twice as heavy as the lightest tree that is left (`Frontier.Ordered`), so the tree that
is merged next is not lighter than those merged before and belongs at the end of its queue. What is
taken precedes all that is left (`Frontier.Ordered.precedes_of_takeLightest`), round after round
(`mergesInTurn_iff`).
-/

set_option autoImplicit false
set_option relaxedAutoImplicit false

namespace HuffmanCoding

namespace Tree

variable {S : Type}

/-- The order in which trees are taken: the lighter one first, and of two trees of equal weight the
one with the lower position. -/
def Precedes (first second : Tree S) : Prop :=
  first.weight.toNat < second.weight.toNat ∨
    first.weight = second.weight ∧ first.position < second.position

theorem Precedes.weight_le {first second : Tree S} (h : first.Precedes second) :
    first.weight ≤ second.weight := by
  rcases h with hlighter | ⟨heq, _⟩
  · exact Nat.le_of_lt hlighter
  · exact Nat.le_of_eq (congrArg Weight.toNat heq)

theorem Precedes.asymm {first second : Tree S} (h : first.Precedes second) :
    ¬ second.Precedes first := by
  rintro (hlighter | ⟨heq, hlower⟩)
  · exact Nat.not_le_of_lt hlighter h.weight_le
  · rcases h with hless | ⟨_, hposition⟩
    · exact absurd (congrArg Weight.toNat heq) hless.ne'
    · exact Nat.lt_asymm hlower hposition

theorem precedes_of_le {first second : Tree S} (hle : first.weight ≤ second.weight)
    (hlower : first.position < second.position) : first.Precedes second := by
  rcases Nat.lt_or_eq_of_le hle with hless | heq
  · exact Or.inl hless
  · exact Or.inr ⟨Weight.ext heq, hlower⟩

/-- One tree arises from some trees by joining two that no other tree is lighter than, again and
again until one is left. -/
inductive Merges : List (Tree S) → Tree S → Prop
  | lone (tree : Tree S) : Merges [tree] tree
  | join {trees rest : List (Tree S)} {left right tree : Tree S} (position : ℕ)
    (hperm : trees.Perm (left :: right :: rest))
    (hleft : ∀ other ∈ right :: rest, left.weight ≤ other.weight)
    (hright : ∀ other ∈ rest, right.weight ≤ other.weight)
    (hmerges : Merges (Tree.join position left right :: rest) tree) : Merges trees tree

/-- Merging keeps the leaves. -/
theorem Merges.contents_perm {trees : List (Tree S)} {tree : Tree S} (h : Merges trees tree) :
    tree.contents.Perm (trees.flatMap contents) := by
  induction h with
  | lone tree => simp
  | join position hperm _ _ _ ih =>
    refine ih.trans (List.Perm.trans ?_ (hperm.flatMap_right contents).symm)
    simp

/-- In each round the two trees that precede all others are joined, and the joined tree has the next
position. -/
inductive MergesInTurn : (next : ℕ) → List (Tree S) → Tree S → Prop
  | lone (next : ℕ) (tree : Tree S) : MergesInTurn next [tree] tree
  | join {next : ℕ} {trees rest : List (Tree S)} {left right tree : Tree S}
    (hperm : trees.Perm (left :: right :: rest))
    (hleft : ∀ other ∈ right :: rest, left.Precedes other)
    (hright : ∀ other ∈ rest, right.Precedes other)
    (hmerges : MergesInTurn (next + 1) (Tree.join next left right :: rest) tree) :
    MergesInTurn next trees tree

/-- The order of the list does not matter. -/
theorem MergesInTurn.perm {next : ℕ} {trees others : List (Tree S)} {tree : Tree S}
    (h : MergesInTurn next trees tree) (hperm : others.Perm trees) :
    MergesInTurn next others tree := by
  cases h with
  | lone => exact List.perm_singleton.mp hperm ▸ MergesInTurn.lone next tree
  | join hother hleft hright hmerges =>
    exact MergesInTurn.join (hperm.trans hother) hleft hright hmerges

theorem MergesInTurn.ne_nil {next : ℕ} {trees : List (Tree S)} {tree : Tree S}
    (h : MergesInTurn next trees tree) : trees ≠ [] := by
  cases h with
  | lone => exact List.cons_ne_nil _ _
  | join hperm => exact fun hnil ↦ absurd (hnil ▸ hperm).length_eq (by simp)

theorem MergesInTurn.merges {next : ℕ} {trees : List (Tree S)} {tree : Tree S}
    (h : MergesInTurn next trees tree) : Merges trees tree := by
  induction h with
  | lone _ tree => exact Merges.lone tree
  | join hperm hleft hright _ ih =>
    exact Merges.join _ hperm (fun other hother ↦ (hleft other hother).weight_le)
      (fun other hother ↦ (hright other hother).weight_le) ih

/-- There is at most one tree that precedes all others. -/
theorem eq_of_precedes {first second : Tree S} {trees others : List (Tree S)}
    (hperm : (first :: trees).Perm (second :: others))
    (hfirst : ∀ other ∈ trees, first.Precedes other)
    (hsecond : ∀ other ∈ others, second.Precedes other) : first = second ∧ trees.Perm others := by
  have heq : first = second := by
    by_contra hne
    have hmem : first ∈ others :=
      (List.mem_cons.mp (hperm.mem_iff.mp List.mem_cons_self)).resolve_left hne
    have hother : second ∈ trees :=
      (List.mem_cons.mp (hperm.mem_iff.mpr List.mem_cons_self)).resolve_left (Ne.symm hne)
    exact (hfirst second hother).asymm (hsecond first hmem)
  subst heq
  exact ⟨rfl, hperm.cons_inv⟩

/-- The order in which trees are taken determines the tree that is left. -/
theorem MergesInTurn.unique {next : ℕ} {trees : List (Tree S)} {tree other : Tree S}
    (h : MergesInTurn next trees tree) (hother : MergesInTurn next trees other) : tree = other := by
  induction h with
  | lone next tree =>
    cases hother with
    | lone => rfl
    | join hperm => exact absurd hperm.length_eq (by simp)
  | @join next trees rest left right tree hperm hleft hright _ ih =>
    cases hother with
    | lone => exact absurd hperm.length_eq (by simp)
    | @join _ _ others first second _ hpermOther hfirst hsecond hmerges =>
      obtain ⟨rfl, htwo⟩ := eq_of_precedes (hperm.symm.trans hpermOther) hleft hfirst
      obtain ⟨rfl, hrest⟩ := eq_of_precedes htwo hright hsecond
      exact ih (hmerges.perm (hrest.cons _))

namespace Frontier

def trees (frontier : Frontier S) : List (Tree S) :=
  frontier.leaves ++ frontier.merged

/-- The queues are in the order in which trees are taken, and leaves have lower positions than
merged trees. All positions are below `next`, no tree is lighter than `least`, and no merged tree is
more than twice as heavy. -/
structure Ordered (least : Weight) (next : ℕ) (frontier : Frontier S) : Prop where
  leaves_sorted : frontier.leaves.Pairwise Precedes
  merged_sorted : frontier.merged.Pairwise Precedes
  leaves_lower : ∀ first ∈ frontier.leaves, ∀ second ∈ frontier.merged,
    first.position < second.position
  position_lt : ∀ tree ∈ frontier.trees, tree.position < next
  least_le : ∀ tree ∈ frontier.trees, least ≤ tree.weight
  merged_le : ∀ tree ∈ frontier.merged, tree.weight ≤ least + least

/-! ### Taking the lightest tree -/

@[simp] theorem leaves_settle (frontier : Frontier S) :
    frontier.settle.leaves = frontier.leaves := by
  unfold settle
  split <;> rfl

@[simp] theorem merged_settle (frontier : Frontier S) :
    frontier.settle.merged = frontier.merged := by
  unfold settle
  split
  · rename_i h
    simp [merged, h]
  · rfl

/-- A settled frontier has its first merged tree in front. -/
theorem merged_eq_nil_of_settle {frontier : Frontier S} (h : frontier.settle.older = []) :
    frontier.merged = [] := by
  unfold settle at h
  split at h
  · rename_i holder
    have hnewer : frontier.newer.reverse = [] := h
    simp [merged, holder, hnewer]
  · rename_i holder
    exact absurd h (by simp [holder])

/-- The tree that is taken is the first leaf, and the first merged tree is not lighter, or it is the
first merged tree, and the first leaf is heavier. -/
theorem takeLightest_cases {frontier rest : Frontier S} {tree : Tree S}
    (h : frontier.takeLightest = some (tree, rest)) :
    (frontier.leaves = tree :: rest.leaves ∧ frontier.merged = rest.merged ∧
      ∀ other ∈ rest.merged.head?, tree.weight ≤ other.weight) ∨
    (frontier.leaves = rest.leaves ∧ frontier.merged = tree :: rest.merged ∧
      ∀ other ∈ rest.leaves.head?, tree.weight.toNat < other.weight.toNat) := by
  rw [← leaves_settle frontier, ← merged_settle frontier]
  have hempty : frontier.settle.older = [] → frontier.merged = [] := merged_eq_nil_of_settle
  rw [← merged_settle frontier] at hempty
  simp only [takeLightest] at h
  generalize frontier.settle = settled at h hempty
  obtain ⟨leaves, older, newer⟩ := settled
  simp only at h hempty
  split at h
  · simp at h
  · cases h
    have hnewer : newer = [] := by simpa [merged] using hempty rfl
    exact Or.inl ⟨rfl, rfl, by simp [merged, hnewer]⟩
  · cases h
    exact Or.inr ⟨rfl, rfl, by simp⟩
  · split at h
    · rename_i hle
      cases h
      exact Or.inl ⟨rfl, rfl, by simpa [merged] using hle⟩
    · rename_i hlt
      cases h
      exact Or.inr ⟨rfl, rfl, by simpa using Nat.lt_of_not_le hlt⟩

theorem exists_takeLightest {frontier : Frontier S} (h : frontier.trees ≠ []) :
    ∃ tree rest, frontier.takeLightest = some (tree, rest) := by
  have hempty : frontier.settle.older = [] → frontier.merged = [] := merged_eq_nil_of_settle
  have htrees : frontier.settle.trees ≠ [] := by simpa [trees] using h
  rw [← merged_settle frontier] at hempty
  simp only [takeLightest]
  generalize frontier.settle = settled at hempty htrees
  obtain ⟨leaves, older, newer⟩ := settled
  simp only at hempty
  cases leaves with
  | nil =>
    cases older with
    | nil => exact absurd (by simpa [trees] using hempty rfl) htrees
    | cons tree older => exact ⟨tree, _, rfl⟩
  | cons first leaves =>
    cases older with
    | nil => exact ⟨first, _, rfl⟩
    | cons second older =>
      by_cases hle : first.weight ≤ second.weight
      · exact ⟨first, _, if_pos hle⟩
      · exact ⟨second, _, if_neg hle⟩

/-- Taking a tree takes it away. -/
theorem perm_of_takeLightest {frontier rest : Frontier S} {tree : Tree S}
    (h : frontier.takeLightest = some (tree, rest)) :
    frontier.trees.Perm (tree :: rest.trees) := by
  rcases takeLightest_cases h with ⟨hleaves, hmerged, _⟩ | ⟨hleaves, hmerged, _⟩
  · rw [trees, hleaves, hmerged, trees, List.cons_append]
  · rw [trees, hleaves, hmerged, trees]
    exact List.perm_middle

theorem length_trees_of_takeLightest {frontier rest : Frontier S} {tree : Tree S}
    (h : frontier.takeLightest = some (tree, rest)) :
    frontier.trees.length = rest.trees.length + 1 := by
  rw [(perm_of_takeLightest h).length_eq, List.length_cons]

/-- What holds of the first tree of a sorted queue holds of all of them, if it goes on along the
order. -/
theorem forall_of_head? {order : Tree S → Tree S → Prop} {property : Tree S → Prop}
    {queue : List (Tree S)} (hsorted : queue.Pairwise order)
    (hgoesOn : ∀ first second, order first second → property first → property second)
    (hhead : ∀ first ∈ queue.head?, property first) : ∀ tree ∈ queue, property tree := by
  cases queue with
  | nil => exact fun tree h ↦ absurd h List.not_mem_nil
  | cons first queue =>
    have hfirst : property first := hhead first rfl
    rw [List.forall_mem_cons]
    exact ⟨hfirst, fun tree h ↦ hgoesOn first tree (List.rel_of_pairwise_cons hsorted h) hfirst⟩

theorem sublists_of_takeLightest {frontier rest : Frontier S} {tree : Tree S}
    (h : frontier.takeLightest = some (tree, rest)) :
    rest.leaves.Sublist frontier.leaves ∧ rest.merged.Sublist frontier.merged := by
  rcases takeLightest_cases h with ⟨hleaves, hmerged, _⟩ | ⟨hleaves, hmerged, _⟩
  · rw [hleaves, hmerged]
    exact ⟨List.sublist_cons_self tree _, List.Sublist.refl _⟩
  · rw [hleaves, hmerged]
    exact ⟨List.Sublist.refl _, List.sublist_cons_self tree _⟩

/-- What is taken from ordered queues precedes all that is left. -/
theorem Ordered.precedes_of_takeLightest {least : Weight} {next : ℕ} {frontier rest : Frontier S}
    {tree : Tree S} (hordered : frontier.Ordered least next)
    (h : frontier.takeLightest = some (tree, rest)) :
    ∀ other ∈ rest.trees, tree.Precedes other := by
  intro other hother
  have hleavesSorted := hordered.leaves_sorted
  have hmergedSorted := hordered.merged_sorted
  rcases takeLightest_cases h with ⟨hleaves, hmerged, hhead⟩ | ⟨hleaves, hmerged, hhead⟩
  · rcases List.mem_append.mp hother with hleaf | hinner
    · rw [hleaves] at hleavesSorted
      exact List.rel_of_pairwise_cons hleavesSorted hleaf
    · rw [hmerged] at hmergedSorted
      have hle := forall_of_head? hmergedSorted
        (fun first second hfirst hle ↦ Nat.le_trans hle hfirst.weight_le) hhead other hinner
      exact precedes_of_le hle (hordered.leaves_lower tree (hleaves ▸ List.mem_cons_self) other
        (hmerged ▸ hinner))
  · rcases List.mem_append.mp hother with hleaf | hinner
    · rw [hleaves] at hleavesSorted
      exact Or.inl (forall_of_head? hleavesSorted
        (fun first second hfirst hlt ↦ Nat.lt_of_lt_of_le hlt hfirst.weight_le) hhead other hleaf)
    · rw [hmerged] at hmergedSorted
      exact List.rel_of_pairwise_cons hmergedSorted hinner

theorem Ordered.le_of_takeLightest {least : Weight} {next : ℕ} {frontier rest : Frontier S}
    {tree : Tree S} (hordered : frontier.Ordered least next)
    (h : frontier.takeLightest = some (tree, rest)) :
    ∀ other ∈ rest.trees, tree.weight ≤ other.weight :=
  fun other hother ↦ (hordered.precedes_of_takeLightest h other hother).weight_le

/-- What is left after a tree was taken is ordered, and no tree in it is lighter than that one. -/
theorem Ordered.takeLightest {least : Weight} {next : ℕ} {frontier rest : Frontier S}
    {tree : Tree S}
    (hordered : frontier.Ordered least next) (h : frontier.takeLightest = some (tree, rest)) :
    least ≤ tree.weight ∧ rest.Ordered tree.weight next := by
  have hleast : least ≤ tree.weight :=
    hordered.least_le tree ((perm_of_takeLightest h).mem_iff.mpr (by simp))
  obtain ⟨hleaves, hmerged⟩ := sublists_of_takeLightest h
  refine ⟨hleast, hordered.leaves_sorted.sublist hleaves, hordered.merged_sorted.sublist hmerged,
    fun first hfirst second hsecond ↦
      hordered.leaves_lower first (hleaves.subset hfirst) second (hmerged.subset hsecond),
    fun other hother ↦ hordered.position_lt other ((hleaves.append hmerged).subset hother),
    hordered.le_of_takeLightest h, fun other hother ↦ ?_⟩
  have hdouble := hordered.merged_le other (hmerged.subset hother)
  simp only [Weight.le_iff, Weight.toNat_add] at hleast hdouble ⊢
  omega

/-! ### All rounds -/

@[simp] theorem leaves_push (frontier : Frontier S) (tree : Tree S) :
    (frontier.push tree).leaves = frontier.leaves := rfl

@[simp] theorem merged_push (frontier : Frontier S) (tree : Tree S) :
    (frontier.push tree).merged = frontier.merged ++ [tree] := by
  simp [push, merged]

theorem perm_trees_push (frontier : Frontier S) (tree : Tree S) :
    (frontier.push tree).trees.Perm (tree :: frontier.trees) := by
  rw [trees, leaves_push, merged_push, ← List.append_assoc]
  exact List.perm_append_singleton tree frontier.trees

theorem length_trees_push (frontier : Frontier S) (tree : Tree S) :
    (frontier.push tree).trees.length = frontier.trees.length + 1 := by
  rw [(perm_trees_push frontier tree).length_eq, List.length_cons]

theorem weight_join (position : ℕ) (left right : Tree S) :
    (Tree.join position left right).weight = left.weight + right.weight := rfl

/-- The tree that two lightest trees are joined to belongs at the end of its queue. -/
theorem Ordered.push_join {left right : Tree S} {frontier : Frontier S} {next : ℕ}
    (hordered : frontier.Ordered right.weight next) (hle : left.weight ≤ right.weight)
    (hbefore : ∀ tree ∈ frontier.merged, tree.weight ≤ left.weight + left.weight) :
    (frontier.push (Tree.join next left right)).Ordered right.weight (next + 1) where
  leaves_sorted := hordered.leaves_sorted
  merged_sorted := by
    rw [merged_push, List.pairwise_append]
    refine ⟨hordered.merged_sorted, List.pairwise_singleton _ _, fun tree htree other hother ↦ ?_⟩
    rw [List.mem_singleton.mp hother]
    refine precedes_of_le ?_ (hordered.position_lt tree (List.mem_append_right _ htree))
    have hdouble := hbefore tree htree
    rw [weight_join]
    simp only [Weight.le_iff, Weight.toNat_add] at hdouble hle ⊢
    omega
  leaves_lower := by
    intro first hfirst second hsecond
    rw [merged_push] at hsecond
    rcases List.mem_append.mp hsecond with hold | hnew
    · exact hordered.leaves_lower first hfirst second hold
    · rw [List.mem_singleton.mp hnew]
      exact hordered.position_lt first (List.mem_append_left _ hfirst)
  position_lt := by
    intro tree htree
    rcases List.mem_cons.mp ((perm_trees_push frontier _).mem_iff.mp htree) with rfl | hold
    · exact Nat.lt_succ_self next
    · exact Nat.lt_succ_of_lt (hordered.position_lt tree hold)
  least_le := by
    intro tree htree
    rcases List.mem_cons.mp ((perm_trees_push frontier _).mem_iff.mp htree) with rfl | hold
    · have hlimit := right.weight.toNat_le
      rw [weight_join]
      simp only [Weight.le_iff, Weight.toNat_add]
      omega
    · exact hordered.least_le tree hold
  merged_le := by
    intro tree htree
    rw [merged_push] at htree
    rcases List.mem_append.mp htree with hold | hnew
    · exact hordered.merged_le tree hold
    · rw [List.mem_singleton.mp hnew, weight_join]
      simp only [Weight.le_iff, Weight.toNat_add] at hle ⊢
      omega

/-- A round leaves the queues in order. -/
theorem Ordered.round {least : Weight} {next : ℕ} {frontier middle last : Frontier S}
    {left right : Tree S} (hordered : frontier.Ordered least next)
    (hleft : frontier.takeLightest = some (left, middle))
    (hright : middle.takeLightest = some (right, last)) :
    (last.push (Tree.join next left right)).Ordered right.weight (next + 1) := by
  have hmiddle := (hordered.takeLightest hleft).2
  obtain ⟨hle, hlast⟩ := hmiddle.takeLightest hright
  exact hlast.push_join hle fun tree htree ↦
    hmiddle.merged_le tree ((sublists_of_takeLightest hright).2.subset htree)

/-- The rounds on ordered queues join the two trees that precede all others until one is left. -/
theorem Ordered.exists_mergeRounds {least : Weight} {next : ℕ} {frontier : Frontier S} {rounds : ℕ}
    (hordered : frontier.Ordered least next) (hcount : frontier.trees.length = rounds + 1) :
    ∃ tree, mergeRounds rounds next frontier = some tree ∧
      MergesInTurn next frontier.trees tree := by
  induction rounds generalizing least frontier next with
  | zero =>
    obtain ⟨tree, rest, htake⟩ :=
      exists_takeLightest (List.ne_nil_of_length_eq_add_one hcount)
    have hperm := perm_of_takeLightest htake
    have hnil : rest.trees = [] := by
      have hlength := length_trees_of_takeLightest htake
      exact List.eq_nil_of_length_eq_zero (by omega)
    rw [hnil] at hperm
    exact ⟨tree, by rw [mergeRounds, htake, Option.map_some],
      (MergesInTurn.lone next tree).perm hperm⟩
  | succ rounds ih =>
    obtain ⟨left, middle, hleft⟩ :=
      exists_takeLightest (List.ne_nil_of_length_eq_add_one hcount)
    have hmiddle := (hordered.takeLightest hleft).2
    have hcountMiddle : middle.trees.length = rounds + 1 := by
      have hlength := length_trees_of_takeLightest hleft
      omega
    obtain ⟨right, last, hright⟩ :=
      exists_takeLightest (List.ne_nil_of_length_eq_add_one hcountMiddle)
    have hpermLeft := perm_of_takeLightest hleft
    have hpermRight := perm_of_takeLightest hright
    have hpush := perm_trees_push last (Tree.join next left right)
    have hcountPush : (last.push (Tree.join next left right)).trees.length = rounds + 1 := by
      rw [length_trees_push, ← length_trees_of_takeLightest hright, hcountMiddle]
    obtain ⟨tree, hrounds, hmerges⟩ := ih (hordered.round hleft hright) hcountPush
    refine ⟨tree, ?_, MergesInTurn.join (hpermLeft.trans (hpermRight.cons left)) ?_
      (hmiddle.precedes_of_takeLightest hright) (hmerges.perm hpush.symm)⟩
    · simp [mergeRounds, hleft, hright, hrounds]
    · intro other hother
      exact hordered.precedes_of_takeLightest hleft other (hpermRight.mem_iff.mpr hother)

/-- The last tree that is taken is the only one. -/
theorem takeLightest_of_mergeRounds {frontier : Frontier S} {next : ℕ} {tree : Tree S}
    (h : frontier.mergeRounds 0 next = some tree) (hcount : frontier.trees.length = 1) :
    ∃ rest, frontier.takeLightest = some (tree, rest) ∧ rest.trees = [] := by
  rw [mergeRounds, Option.map_eq_some_iff] at h
  obtain ⟨⟨taken, rest⟩, htake, rfl⟩ := h
  have hlength := length_trees_of_takeLightest htake
  exact ⟨rest, htake, List.eq_nil_of_length_eq_zero (by omega)⟩

/-- A round takes two trees and puts back what they are joined to. -/
theorem exists_round_of_mergeRounds {frontier : Frontier S} {rounds next : ℕ} {tree : Tree S}
    (h : frontier.mergeRounds (rounds + 1) next = some tree)
    (hcount : frontier.trees.length = rounds + 1 + 1) :
    ∃ left middle right last, frontier.takeLightest = some (left, middle) ∧
      middle.takeLightest = some (right, last) ∧
      (last.push (Tree.join next left right)).mergeRounds rounds (next + 1) = some tree ∧
      (last.push (Tree.join next left right)).trees.length = rounds + 1 := by
  simp only [mergeRounds, Option.bind_eq_bind, Option.bind_eq_some_iff, Prod.exists] at h
  obtain ⟨left, middle, hleft, right, last, hright, hrest⟩ := h
  have hfirst := length_trees_of_takeLightest hleft
  have hsecond := length_trees_of_takeLightest hright
  refine ⟨left, middle, right, last, hleft, hright, hrest, ?_⟩
  rw [length_trees_push]
  omega

/-- Sorting by weight keeps trees of equal weight in the order of their positions. -/
theorem pairwise_mergeSort_precedes {trees : List (Tree S)}
    (h : trees.Pairwise fun first second ↦ first.position < second.position) :
    (trees.mergeSort fun first second ↦ first.weight ≤ second.weight).Pairwise Precedes := by
  let le : Tree S → Tree S → Bool := fun first second ↦ first.weight ≤ second.weight
  have htrans (first second third : Tree S) (hfirst : le first second = true)
      (hsecond : le second third = true) : le first third = true :=
    decide_eq_true (Nat.le_trans (of_decide_eq_true hfirst) (of_decide_eq_true hsecond))
  have htotal (first second : Tree S) : (le first second || le second first) = true := by
    rw [Bool.or_eq_true, decide_eq_true_eq, decide_eq_true_eq]
    exact Nat.le_total _ _
  have hperm := List.mergeSort_perm trees.zipIdx (List.zipIdxLE le)
  have hsorted := List.pairwise_mergeSort (List.zipIdxLE_trans htrans) (List.zipIdxLE_total htotal)
    trees.zipIdx
  have hdistinct : (trees.zipIdx.mergeSort (List.zipIdxLE le)).Pairwise
      fun first second ↦ first.2 ≠ second.2 := by
    rw [← List.pairwise_map]
    refine (hperm.map Prod.snd).nodup_iff.mpr ?_
    rw [List.zipIdx_map_snd]
    exact List.nodup_range'
  rw [← List.mergeSort_zipIdx, List.pairwise_map]
  refine (hsorted.and hdistinct).imp_of_mem ?_
  rintro ⟨first, place⟩ ⟨second, other⟩ hfirst hsecond ⟨hle, hne⟩
  obtain ⟨hplace, hfirst⟩ := List.mem_zipIdx' (hperm.mem_iff.mp hfirst)
  obtain ⟨hother, hsecond⟩ := List.mem_zipIdx' (hperm.mem_iff.mp hsecond)
  unfold List.zipIdxLE at hle
  split_ifs at hle with hlight hheavy
  · have hlower : place < other := lt_of_le_of_ne (of_decide_eq_true hle) hne
    have hposition := List.pairwise_iff_getElem.mp h place other hplace hother hlower
    rw [← hfirst, ← hsecond] at hposition
    exact precedes_of_le (of_decide_eq_true hlight) hposition
  · exact Or.inl (Nat.lt_of_not_le fun hle ↦ hheavy (decide_eq_true hle))

theorem pairwise_position_leaves (contents : List (Leaf S)) :
    (contents.zipIdx.map fun entry ↦ leaf entry.2 entry.1).Pairwise
      fun first second ↦ first.position < second.position := by
  rw [List.pairwise_map]
  show contents.zipIdx.Pairwise fun first second ↦ first.2 < second.2
  rw [← List.pairwise_map, List.zipIdx_map_snd]
  exact List.pairwise_lt_range'

/-- Leaves that come with the lightest one in front stay as they are. -/
theorem ofLeaves_of_pairwise {contents : List (Leaf S)}
    (h : contents.Pairwise fun first second ↦ first.weight ≤ second.weight) :
    ofLeaves contents = ⟨contents.zipIdx.map fun entry ↦ leaf entry.2 entry.1, [], []⟩ := by
  have hsorted : (contents.zipIdx.map fun entry ↦ leaf entry.2 entry.1).Pairwise
      fun first second ↦ decide (first.weight ≤ second.weight) = true := by
    rw [← List.zipIdx_map_fst 0 contents, List.pairwise_map] at h
    rw [List.pairwise_map]
    exact h.imp fun hle ↦ decide_eq_true hle
  exact congrArg (Frontier.mk · [] []) (List.mergeSort_of_pairwise hsorted)

theorem trees_ofLeaves_perm (contents : List (Leaf S)) :
    (ofLeaves contents).trees.Perm
      (contents.zipIdx.map fun entry ↦ leaf entry.2 entry.1) := by
  simp only [trees, ofLeaves, merged, List.reverse_nil, List.append_nil]
  exact List.mergeSort_perm _ _

/-- Before anything is merged, the queues are in order. -/
theorem ordered_ofLeaves (contents : List (Leaf S)) :
    (ofLeaves contents).Ordered 0 contents.length where
  leaves_sorted := pairwise_mergeSort_precedes (pairwise_position_leaves contents)
  merged_sorted := List.Pairwise.nil
  leaves_lower := fun _ _ second hsecond ↦ absurd hsecond (by simp [merged, ofLeaves])
  position_lt := by
    intro tree htree
    have hmem := (trees_ofLeaves_perm contents).mem_iff.mp htree
    obtain ⟨entry, hentry, rfl⟩ := List.mem_map.mp hmem
    exact (List.mem_zipIdx' hentry).1
  least_le := fun tree _ ↦ Nat.zero_le _
  merged_le := by simp [merged, ofLeaves]

theorem length_trees_ofLeaves {contents : List (Leaf S)} (h : contents ≠ []) :
    (ofLeaves contents).trees.length = contents.length - 1 + 1 := by
  rw [(trees_ofLeaves_perm contents).length_eq, List.length_map, List.length_zipIdx]
  have hpos := List.length_pos_of_ne_nil h
  omega

end Frontier

/-- Some leaves have a tree that arises by joining the two trees that precede all others. -/
theorem exists_ofLeaves? {contents : List (Leaf S)} (h : contents ≠ []) :
    ∃ tree, ofLeaves? contents = some tree ∧ MergesInTurn contents.length
      (contents.zipIdx.map fun entry ↦ leaf entry.2 entry.1) tree := by
  obtain ⟨tree, htree, hmerges⟩ := (Frontier.ordered_ofLeaves contents).exists_mergeRounds
    (Frontier.length_trees_ofLeaves h)
  exact ⟨tree, htree, hmerges.perm (Frontier.trees_ofLeaves_perm contents).symm⟩

/-- Only leaves have a tree. -/
theorem ne_nil_of_ofLeaves? {contents : List (Leaf S)} {tree : Tree S}
    (h : ofLeaves? contents = some tree) : contents ≠ [] := by
  rintro rfl
  simp [ofLeaves?, Frontier.ofLeaves, Frontier.mergeRounds, Frontier.takeLightest,
    Frontier.settle] at h

/-- The tree of some leaves is the one tree that arises by joining, round after round, the two trees
that precede all others, where leaves have their places as positions and joined trees the positions
behind them. -/
theorem mergesInTurn_iff {contents : List (Leaf S)} {tree : Tree S} :
    MergesInTurn contents.length (contents.zipIdx.map fun entry ↦ leaf entry.2 entry.1) tree ↔
      ofLeaves? contents = some tree := by
  constructor
  · intro h
    have hne : contents ≠ [] := by
      rintro rfl
      exact h.ne_nil rfl
    obtain ⟨other, hother, hmerges⟩ := exists_ofLeaves? hne
    rw [hother, h.unique hmerges]
  · intro h
    obtain ⟨other, hother, hmerges⟩ := exists_ofLeaves? (ne_nil_of_ofLeaves? h)
    rw [h, Option.some.injEq] at hother
    exact hother ▸ hmerges

theorem merges_of_ofLeaves? {contents : List (Leaf S)} {tree : Tree S}
    (h : ofLeaves? contents = some tree) :
    Merges (contents.zipIdx.map fun entry ↦ leaf entry.2 entry.1) tree :=
  (mergesInTurn_iff.mpr h).merges

/-- The tree of some leaves has these leaves. -/
theorem contents_perm_of_ofLeaves? {contents : List (Leaf S)} {tree : Tree S}
    (h : ofLeaves? contents = some tree) : tree.contents.Perm contents := by
  have hperm := (merges_of_ofLeaves? h).contents_perm
  have hleaves : (contents.zipIdx.map fun entry ↦ leaf entry.2 entry.1).flatMap
      Tree.contents = contents := by
    rw [List.flatMap_map]
    exact List.map_eq_flatMap.symm.trans (List.zipIdx_map_fst 0 contents)
  rwa [hleaves] at hperm

end Tree

end HuffmanCoding
