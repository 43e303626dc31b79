import HuffmanCoding.Codec.Tables
import HuffmanCoding.Proofs.Frequencies
import Mathlib.Algebra.BigOperators.Group.List.Basic
import Mathlib.Algebra.GroupWithZero.Nat

/-!
# Training in any order

However symbols are counted, one at a time, several at once, in sequences, in tables that are merged
or in shards that are counted side by side, every step contributes a weight to a symbol. A table
holds exactly the symbols to which something was contributed, each with the sum of its contributions
up to the limit (`Frequencies.Tallies`). Counting adds one contribution (`Tallies.add`) and merging
adds the contributions of another table (`Tallies.merge`), although the other table has capped its
sums already: a sum is capped once or several times with the same result.

So training leaves no trace of its order or its grouping (`Training.table_eq_iff`), neither in the
table nor in anything that is derived from it (`training_isOrderFree`).
-/

set_option autoImplicit false
set_option relaxedAutoImplicit false

namespace HuffmanCoding

variable {S : Type} [Symbol S]

/-! ### Contributions -/

/-- The sum of what some contributions add to a symbol. -/
def contributed (contributions : List (S × Weight)) (symbol : S) : ℕ :=
  (contributions.map fun entry ↦ if entry.1 == symbol then entry.2.toNat else 0).sum

@[simp] theorem contributed_nil (symbol : S) : contributed [] symbol = 0 := rfl

theorem contributed_cons (entry : S × Weight) (contributions : List (S × Weight)) (symbol : S) :
    contributed (entry :: contributions) symbol =
      (if entry.1 == symbol then entry.2.toNat else 0) + contributed contributions symbol := by
  rw [contributed, List.map_cons, List.sum_cons]
  rfl

theorem contributed_append (first second : List (S × Weight)) (symbol : S) :
    contributed (first ++ second) symbol =
      contributed first symbol + contributed second symbol := by
  rw [contributed, List.map_append, List.sum_append]
  rfl

/-- The order of contributions does not matter for their sums. -/
theorem contributed_perm {first second : List (S × Weight)} (h : first.Perm second) (symbol : S) :
    contributed first symbol = contributed second symbol :=
  (h.map _).sum_eq

/-- The occurrences in a sequence contribute one each. -/
theorem contributed_occurrences (symbols : List S) (symbol : S) :
    contributed (symbols.map fun seen ↦ (seen, 1)) symbol = symbols.count symbol := by
  induction symbols with
  | nil => rfl
  | cons seen symbols ih =>
    have hone : (1 : Weight).toNat = 1 := rfl
    rw [List.map_cons, contributed_cons, ih, List.count_cons, hone, Nat.add_comm]

/-- What nobody contributes to is not among the contributions. -/
theorem contributed_eq_zero {contributions : List (S × Weight)} {symbol : S}
    (h : ∀ entry ∈ contributions, entry.1 ≠ symbol) : contributed contributions symbol = 0 := by
  refine List.sum_eq_zero fun amount hamount ↦ ?_
  obtain ⟨entry, hentry, rfl⟩ := List.mem_map.mp hamount
  exact if_neg fun heq ↦ h entry hentry (beq_iff_eq.mp heq)

/-! ### Tables of sums -/

namespace Weight

theorem ofNat_add (value : ℕ) (weight : Weight) :
    ofNat value + weight = ofNat (value + weight.toNat) := by
  apply Weight.ext
  simp only [toNat_add, toNat_ofNat]
  omega

theorem ofNat_eq_ofNat_iff {first second : ℕ} :
    ofNat first = ofNat second ↔ min first limit = min second limit :=
  Weight.ext_iff

end Weight

namespace Frequencies

variable {table other : Frequencies S} {sums others : S → ℕ}

/-- The table holds the symbols with a positive sum, each with its sum up to the limit. -/
def Tallies (table : Frequencies S) (sums : S → ℕ) : Prop :=
  ∀ symbol, table.weights[symbol]? = if sums symbol = 0 then none else some (.ofNat (sums symbol))

theorem tallies_empty : (empty : Frequencies S).Tallies fun _ ↦ 0 :=
  fun _ ↦ Std.ExtTreeMap.getElem?_empty

theorem Tallies.weight_eq (h : table.Tallies sums) (symbol : S) :
    table.weight symbol = .ofNat (sums symbol) := by
  rw [weight, Std.ExtTreeMap.getD_eq_getD_getElem?, h symbol]
  split_ifs with hzero
  · rw [hzero]
    rfl
  · rfl

theorem Tallies.mem_iff (h : table.Tallies sums) {symbol : S} :
    symbol ∈ table.weights ↔ 0 < sums symbol := by
  rw [Std.ExtTreeMap.mem_iff_isSome_getElem?, h symbol, Nat.pos_iff_ne_zero]
  split_ifs with hzero
  · simp [hzero]
  · simp [hzero]

/-- Sums that are capped alike are tallied by the same tables. -/
theorem Tallies.congr (h : table.Tallies sums)
    (hsame : ∀ symbol, Weight.ofNat (sums symbol) = Weight.ofNat (others symbol)) :
    table.Tallies others := by
  intro symbol
  have hcapped := Weight.ofNat_eq_ofNat_iff.mp (hsame symbol)
  have hlimit : 0 < Weight.limit := by decide
  have hzero : sums symbol = 0 ↔ others symbol = 0 := by omega
  rw [h symbol, hsame symbol]
  simp only [hzero]

/-- A table is determined by the sums that it tallies, as far as the limit lets them show. -/
theorem Tallies.eq_iff (h : table.Tallies sums) (hother : other.Tallies others) :
    table = other ↔ ∀ symbol, Weight.ofNat (sums symbol) = Weight.ofNat (others symbol) := by
  constructor
  · rintro rfl symbol
    rw [← h.weight_eq, ← hother.weight_eq]
  · intro hsame
    have hweights : table.weights = other.weights :=
      Std.ExtTreeMap.ext_getElem? fun symbol ↦ by rw [h.congr hsame symbol, hother symbol]
    exact congrArg Frequencies.mk hweights

/-- Counting adds a contribution. A contribution of zero does not bring a symbol into the table. -/
theorem Tallies.add (h : table.Tallies sums) (symbol : S) (occurrences : Weight) :
    (table.add symbol occurrences).Tallies fun other ↦
      sums other + if symbol == other then occurrences.toNat else 0 := by
  intro other
  by_cases hnone : occurrences = 0
  · rw [Frequencies.add, if_pos hnone, hnone, h other]
    simp
  · have hpos : occurrences.toNat ≠ 0 := fun hzero ↦ hnone (Weight.ext hzero)
    rw [Frequencies.add, if_neg hnone, Std.ExtTreeMap.getElem?_alter]
    by_cases hsymbol : symbol = other
    · subst hsymbol
      rw [if_pos Std.ReflCmp.compare_self, h symbol]
      have hsum : Weight.ofNat (sums symbol) + occurrences =
          Weight.ofNat (sums symbol + occurrences.toNat) := Weight.ofNat_add _ _
      have hsome : sums symbol + occurrences.toNat ≠ 0 := by omega
      simp only [beq_self_eq_true, if_true, if_neg hsome, Option.some.injEq]
      rw [← hsum]
      split_ifs with hzero
      · rw [hzero]
        rfl
      · rfl
    · rw [if_neg (fun heq ↦ hsymbol (Std.LawfulEqCmp.compare_eq_iff_eq.mp heq)), h other]
      simp [hsymbol]

/-- Counting one contribution after the other adds all of them. -/
theorem Tallies.addEach (h : table.Tallies sums) (contributions : List (S × Weight)) :
    (contributions.foldl (fun table entry ↦ table.add entry.1 entry.2) table).Tallies
      fun symbol ↦ sums symbol + contributed contributions symbol := by
  induction contributions generalizing table sums with
  | nil => exact h
  | cons entry contributions ih =>
    have hrest := ih (h.add entry.1 entry.2)
    simp only [Nat.add_assoc, ← contributed_cons] at hrest
    exact hrest

theorem Tallies.addAll (h : table.Tallies sums) (symbols : List S) :
    (table.addAll symbols).Tallies fun symbol ↦ sums symbol + symbols.count symbol := by
  have hall := h.addEach (symbols.map fun seen ↦ (seen, 1))
  simp only [contributed_occurrences] at hall
  rw [List.foldl_map] at hall
  exact hall

/-- A table of a sequence tallies the occurrences in it. -/
theorem tallies_addAll (symbols : List S) :
    (empty.addAll symbols).Tallies fun symbol ↦ symbols.count symbol := by
  have hall := tallies_empty.addAll symbols
  simp only [Nat.zero_add] at hall
  exact hall

/-- A table contributes the weights that it holds. -/
theorem contributed_toList (table : Frequencies S) (symbol : S) :
    contributed table.toList symbol = (table.weight symbol).toNat := by
  have hkeys : table.toList.Pairwise fun first second ↦ first.1 ≠ second.1 := by
    refine (Std.ExtTreeMap.distinct_keys_toList (t := table.weights)).imp ?_
    intro first second hne heq
    exact hne (Std.LawfulEqCmp.compare_eq_iff_eq.mpr heq)
  have hmem (weight : Weight) :
      (symbol, weight) ∈ table.toList ↔ table.weights[symbol]? = some weight :=
    Std.ExtTreeMap.mem_toList_iff_getElem?_eq_some
  rw [weight, Std.ExtTreeMap.getD_eq_getD_getElem?]
  cases hweight : table.weights[symbol]? with
  | none =>
    refine contributed_eq_zero fun entry hentry heq ↦ ?_
    have hsome := (hmem entry.2).mp (heq ▸ hentry)
    rw [hweight] at hsome
    cases hsome
  | some weight =>
    obtain ⟨before, behind, hsplit⟩ := List.append_of_mem ((hmem weight).mpr hweight)
    rw [hsplit, List.pairwise_append, List.pairwise_cons] at hkeys
    obtain ⟨_, ⟨hbehind, _⟩, hbefore⟩ := hkeys
    rw [hsplit, contributed_append, contributed_cons,
      contributed_eq_zero fun entry hentry ↦ hbefore entry hentry _ List.mem_cons_self,
      contributed_eq_zero fun entry hentry ↦ (hbehind entry hentry).symm]
    simp

/-- Merging adds up contributions, although both tables have capped theirs. -/
theorem Tallies.merge (h : table.Tallies sums) (hother : other.Tallies others) :
    (table.merge other).Tallies fun symbol ↦ sums symbol + others symbol := by
  refine (h.addEach other.toList).congr fun symbol ↦ ?_
  -- What the other table holds is capped already. Capping the sum hides that.
  rw [contributed_toList, hother.weight_eq, Weight.ofNat_eq_ofNat_iff, Weight.toNat_ofNat]
  omega

end Frequencies

/-! ### Shards -/

/-- A way to count a sequence in shards: each shard is counted on its own, and the tables are merged
in any grouping. Empty tables may come in between. -/
inductive Sharding (S : Type) where
  | idle
  | shard (symbols : List S)
  | merged (first second : Sharding S)

namespace Sharding

def shards : Sharding S → List (List S)
  | idle => []
  | shard symbols => [symbols]
  | merged first second => first.shards ++ second.shards

def table : Sharding S → Frequencies S
  | idle => .empty
  | shard symbols => Frequencies.empty.addAll symbols
  | merged first second => first.table.merge second.table

theorem tallies_table (sharding : Sharding S) :
    sharding.table.Tallies fun symbol ↦ sharding.shards.flatten.count symbol := by
  induction sharding with
  | idle => exact Frequencies.tallies_empty
  | shard symbols =>
    simp only [shards, List.flatten_singleton]
    exact Frequencies.tallies_addAll symbols
  | merged first second ihFirst ihSecond =>
    simp only [shards, List.flatten_append, List.count_append]
    exact ihFirst.merge ihSecond

/-- The grouping in which shards are merged one after the other. -/
def inOrder (shards : List (List S)) : Sharding S :=
  shards.foldl (fun before symbols ↦ merged before (shard symbols)) idle

omit [Symbol S] in
theorem shards_inOrder (shards : List (List S)) : (inOrder shards).shards = shards := by
  have hfold (shards : List (List S)) (before : Sharding S) :
      (shards.foldl (fun before symbols ↦ merged before (shard symbols)) before).shards =
        before.shards ++ shards := by
    induction shards generalizing before with
    | nil => rw [List.foldl_nil, List.append_nil]
    | cons symbols shards ih =>
      rw [List.foldl_cons, ih, Sharding.shards, Sharding.shards, List.append_assoc]
      rfl
  exact hfold shards idle

theorem table_inOrder (shards : List (List S)) :
    (inOrder shards).table = Frequencies.ofShards shards :=
  (List.foldl_hom table fun _ _ ↦ rfl).symm

end Sharding

/-! ### Any training -/

/-- A way to come to a table: each step goes on from the table before. -/
inductive Training (S : Type) where
  | start
  | once (before : Training S) (symbol : S)
  | times (before : Training S) (symbol : S) (occurrences : Weight)
  | sequence (before : Training S) (symbols : List S)
  | merged (before other : Training S)
  | sharded (sharding : Sharding S)

namespace Training

def table : Training S → Frequencies S
  | start => .empty
  | once before symbol => before.table.add symbol 1
  | times before symbol occurrences => before.table.add symbol occurrences
  | sequence before symbols => before.table.addAll symbols
  | merged before other => before.table.merge other.table
  | sharded sharding => sharding.table

/-- All that was contributed to symbols, step by step. -/
def contributions : Training S → List (S × Weight)
  | start => []
  | once before symbol => before.contributions ++ [(symbol, 1)]
  | times before symbol occurrences => before.contributions ++ [(symbol, occurrences)]
  | sequence before symbols => before.contributions ++ symbols.map fun symbol ↦ (symbol, 1)
  | merged before other => before.contributions ++ other.contributions
  | sharded sharding => sharding.shards.flatten.map fun symbol ↦ (symbol, 1)

/-- Every way to a table tallies what was contributed on it. -/
theorem tallies_table (training : Training S) :
    training.table.Tallies (contributed training.contributions) := by
  have hone (symbol other : S) (occurrences : Weight) :
      (if symbol == other then occurrences.toNat else 0) =
        contributed [(symbol, occurrences)] other := by
    rw [contributed_cons, contributed_nil, Nat.add_zero]
  induction training with
  | start => exact Frequencies.tallies_empty
  | once before symbol ih =>
    refine (ih.add symbol 1).congr fun other ↦ ?_
    rw [contributions, contributed_append, hone]
  | times before symbol occurrences ih =>
    refine (ih.add symbol occurrences).congr fun other ↦ ?_
    rw [contributions, contributed_append, hone]
  | sequence before symbols ih =>
    refine (ih.addAll symbols).congr fun other ↦ ?_
    rw [contributions, contributed_append, contributed_occurrences]
  | merged before other ihBefore ihOther =>
    refine (ihBefore.merge ihOther).congr fun symbol ↦ ?_
    rw [contributions, contributed_append]
  | sharded sharding =>
    refine sharding.tallies_table.congr fun symbol ↦ ?_
    rw [contributions, contributed_occurrences]

/-- What training amounts to: its contributions alone, in whatever order and grouping they came,
determine the table and everything that is derived from it. -/
structure LeavesNoTrace (training : Training S) : Prop where
  weight_eq : ∀ symbol, (training.table.weight symbol).toNat =
    min (contributed training.contributions symbol) Weight.limit
  mem_iff : ∀ symbol, symbol ∈ training.table.weights ↔
    0 < contributed training.contributions symbol
  table_eq_iff : ∀ other : Training S, training.table = other.table ↔
    ∀ symbol, min (contributed training.contributions symbol) Weight.limit =
      min (contributed other.contributions symbol) Weight.limit
  build_eq : ∀ other : Training S, training.contributions.Perm other.contributions →
    training.table = other.table ∧
      ∀ config, Tables.build training.table config = Tables.build other.table config

theorem leavesNoTrace (training : Training S) : training.LeavesNoTrace := by
  have htable (other : Training S) : training.table = other.table ↔
      ∀ symbol, min (contributed training.contributions symbol) Weight.limit =
        min (contributed other.contributions symbol) Weight.limit := by
    simp only [training.tallies_table.eq_iff other.tallies_table, Weight.ofNat_eq_ofNat_iff]
  refine ⟨fun symbol ↦ ?_, fun _ ↦ training.tallies_table.mem_iff, htable, fun other hperm ↦ ?_⟩
  · rw [training.tallies_table.weight_eq, Weight.toNat_ofNat]
  · have hsame : training.table = other.table :=
      (htable other).mpr fun symbol ↦ by rw [contributed_perm hperm]
    exact ⟨hsame, fun config ↦ by rw [hsame]⟩

end Training

/-- However shards are grouped, their table is that of the whole sequence. -/
theorem Sharding.table_eq (sharding : Sharding S) :
    sharding.table = Frequencies.empty.addAll sharding.shards.flatten :=
  (sharding.tallies_table.eq_iff (Frequencies.tallies_addAll _)).mpr fun _ ↦ rfl

/-- Training leaves a table with the symbols to which something was contributed, each with the sum
of its contributions up to the limit, and no trace of their order and grouping in anything that is
derived from the table. In particular a sequence that is counted in shards has the same table as the
sequence as a whole, however the tables of the shards are merged. -/
theorem training_isOrderFree :
    (∀ training : Training S, training.LeavesNoTrace) ∧
      ∀ sharding : Sharding S,
        sharding.table = Frequencies.empty.addAll sharding.shards.flatten ∧
        sharding.table = Frequencies.ofShards sharding.shards := by
  refine ⟨Training.leavesNoTrace, fun sharding ↦ ⟨sharding.table_eq, ?_⟩⟩
  have hshards : (Sharding.inOrder sharding.shards).shards = sharding.shards :=
    Sharding.shards_inOrder _
  rw [sharding.table_eq, ← Sharding.table_inOrder, Sharding.table_eq, hshards]

/-- Three contributions in another order and grouping, two of which exceed the limit together, lead
to the same tables. -/
theorem training_isOrderFree_of_letters :
    let first : Training Char := (Training.start.times 'a' ⟨Weight.limit, Nat.le_refl _⟩).sequence
      ['b', 'a']
    let second : Training Char := .merged (.sharded (.merged (.shard ['b']) (.shard ['a'])))
      (Training.start.times 'a' ⟨Weight.limit, Nat.le_refl _⟩)
    first.contributions.Perm second.contributions ∧ first.table = second.table ∧
      (first.table.weight 'a').toNat = Weight.limit ∧ 'b' ∈ first.table.weights ∧
      Tables.build first.table .standard = Tables.build second.table .standard := by
  intro first second
  have hperm : first.contributions.Perm second.contributions := by decide +kernel
  obtain ⟨htraces, _⟩ := training_isOrderFree (S := Char)
  have hfirst := htraces first
  obtain ⟨htable, hbuild⟩ := hfirst.build_eq second hperm
  refine ⟨hperm, htable, (hfirst.weight_eq 'a').trans ?_, (hfirst.mem_iff 'b').mpr ?_,
    hbuild .standard⟩
  · decide +kernel
  · decide +kernel

end HuffmanCoding
