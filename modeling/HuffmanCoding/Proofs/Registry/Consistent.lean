import HuffmanCoding.Registry
import Mathlib.Data.List.Nodup
import Mathlib.Data.Nat.Notation

/-!
# Consistent registries

The groups of a registry and its two indexes are changed at one place only, where a type is
registered (`Registry.insert`). A registry is consistent if the indexes lead to exactly those slots
in which the types stand, no key and no identifier stands twice, and each type has the identifier
that its place in its group gives it (`Registry.IsConsistent`).

A registration that is refused changes nothing, and one that is not adds a type whose key and
identifier were free (`Registry.enter_cases`). So registrations keep a registry consistent
(`IsConsistent.insert`), and so does opening a group (`IsConsistent.append`).
-/

set_option autoImplicit false
set_option relaxedAutoImplicit false

namespace HuffmanCoding

/-! ### Indexes -/

namespace Index

variable {κ : Type} [DecidableEq κ] {index : Index κ} {key : κ}

theorem find?_empty (key : κ) : (empty : Index κ).find? key = none := rfl

/-- A key that is put into an index leads to its new slot, and other keys lead where they did. -/
theorem find?_insert (index : Index κ) (key other : κ) (slot : Slot) :
    (index.insert key slot).find? other = if other = key then some slot else index.find? other := by
  show List.lookup other ((key, slot) :: index.rows.filter (·.1 ≠ key)) = _
  by_cases hsame : other = key
  · rw [if_pos hsame, hsame, List.lookup_cons_self]
  · have hskip : (other == key) = false := beq_eq_false_iff_ne.mpr hsame
    rw [if_neg hsame, List.lookup_cons, hskip]
    show List.lookup other (index.rows.filter (·.1 ≠ key)) = List.lookup other index.rows
    induction index.rows with
    | nil => rfl
    | cons row rows ih =>
      obtain ⟨found, there⟩ := row
      by_cases hremoved : found = key
      · have hpast : (other == found) = false := by
          rw [hremoved]
          exact hskip
        rw [List.filter_cons_of_neg (by simpa using hremoved), ih, List.lookup_cons, hpast]
      · rw [List.filter_cons_of_pos (by simpa using hremoved), List.lookup_cons, List.lookup_cons,
          ih]

/-- A key that was not in the index is one more key. -/
theorem size_insert (h : index.find? key = none) (slot : Slot) :
    (index.insert key slot).size = index.size + 1 := by
  have hkept : index.rows.filter (·.1 ≠ key) = index.rows := by
    rw [List.filter_eq_self]
    intro row hrow
    have hother := List.lookup_eq_none_iff.mp h row hrow
    exact decide_eq_true (Ne.symm (bne_iff_ne.mp hother))
  show ((key, slot) :: index.rows.filter (·.1 ≠ key)).length = _
  rw [hkept, List.length_cons]
  rfl

end Index

/-- The number that the next type of a group takes for its identifier. -/
def TypeGroup.next {κ : Type} [TypeKeys κ] (group : TypeGroup κ) : ℕ :=
  group.base.toNat + group.types.length

theorem TypeGroup.next_append {κ : Type} [TypeKeys κ] (group : TypeGroup κ)
    (type : RegisteredType κ) :
    ({ group with types := group.types ++ [type] } : TypeGroup κ).next = group.next + 1 := by
  rw [next, next, List.length_append, List.length_singleton, Nat.add_assoc]

namespace Registry

variable {κ : Type} [TypeKeys κ]

/-! ### Slots -/

/-- The types of a registry are those that stand in its slots. -/
theorem mem_types_iff {registry : Registry κ} {type : RegisteredType κ} :
    type ∈ registry.types ↔ ∃ slot, registry.typeAt? slot = some type := by
  simp only [types, List.mem_flatMap, typeAt?, Option.bind_eq_some_iff]
  constructor
  · rintro ⟨group, hgroup, htype⟩
    obtain ⟨place, hplace⟩ := List.mem_iff_getElem?.mp hgroup
    obtain ⟨position, hposition⟩ := List.mem_iff_getElem?.mp htype
    exact ⟨⟨place, position⟩, group, hplace, hposition⟩
  · rintro ⟨slot, group, hgroup, htype⟩
    exact ⟨group, List.mem_of_getElem? hgroup, List.mem_of_getElem? htype⟩

/-- A group that has no types yet changes no slot. -/
theorem typeAt?_append (registry : Registry κ) (name : String) (base : UInt32) (slot : Slot) :
    typeAt? { registry with groups := registry.groups ++ [⟨name, base, []⟩] } slot =
      registry.typeAt? slot := by
  show ((registry.groups ++ [⟨name, base, []⟩])[slot.group]?).bind _ = _
  rw [List.getElem?_append, typeAt?]
  split_ifs with hold
  · rfl
  · rw [List.getElem?_eq_none (Nat.le_of_not_lt hold)]
    cases hnew : [(⟨name, base, []⟩ : TypeGroup κ)][slot.group - registry.groups.length]? with
    | none => rfl
    | some group =>
      rw [List.mem_singleton.mp (List.mem_of_getElem? hnew)]
      rfl

theorem types_append (registry : Registry κ) (name : String) (base : UInt32) :
    types { registry with groups := registry.groups ++ [⟨name, base, []⟩] } = registry.types := by
  show (registry.groups ++ [(⟨name, base, []⟩ : TypeGroup κ)]).flatMap TypeGroup.types = _
  rw [List.flatMap_append, List.flatMap_singleton, List.append_nil, types]

section Insert

variable [DecidableEq κ] {registry : Registry κ} {place : ℕ} {group : TypeGroup κ}

/-- Registering a type changes its group only. -/
theorem getElem?_insert (registry : Registry κ) (slot : Slot) (type : RegisteredType κ)
    (index : ℕ) : (registry.insert slot type).groups[index]? =
      registry.groups[index]?.map fun group ↦
        if slot.group = index then { group with types := group.types ++ [type] } else group :=
  List.getElem?_modify ..

theorem getElem?_insert_self (hgroup : registry.groups[place]? = some group) (position : ℕ)
    (type : RegisteredType κ) : (registry.insert ⟨place, position⟩ type).groups[place]? =
      some { group with types := group.types ++ [type] } := by
  rw [getElem?_insert, hgroup, Option.map_some, if_pos rfl]

/-- Registering a type adds no group. -/
theorem length_insert (registry : Registry κ) (slot : Slot) (type : RegisteredType κ) :
    (registry.insert slot type).groups.length = registry.groups.length :=
  List.length_modify ..

/-- The new type stands behind the others of its group, and they stand where they did. -/
theorem typeAt?_insert (hgroup : registry.groups[place]? = some group) (type : RegisteredType κ)
    (slot : Slot) : (registry.insert ⟨place, group.types.length⟩ type).typeAt? slot =
      if slot = ⟨place, group.types.length⟩ then some type else registry.typeAt? slot := by
  obtain ⟨other, position⟩ := slot
  simp only [typeAt?, insert, List.getElem?_modify]
  by_cases hplace : place = other
  · subst hplace
    simp only [hgroup, Option.map_eq_map, Option.map_some, Option.bind_some, if_true,
      List.getElem?_append, Slot.mk.injEq, true_and]
    rcases Nat.lt_trichotomy position group.types.length with hlt | heq | hgt
    · rw [if_pos hlt, if_neg (Nat.ne_of_lt hlt)]
    · rw [heq, if_neg (Nat.lt_irrefl _), if_pos rfl, Nat.sub_self]
      rfl
    · rw [if_neg (Nat.lt_asymm hgt), if_neg (Nat.ne_of_gt hgt),
        List.getElem?_eq_none (Nat.le_of_lt hgt),
        List.getElem?_eq_none]
      rw [List.length_singleton]
      omega
  · have hslot : ¬ (⟨other, position⟩ : Slot) = ⟨place, group.types.length⟩ :=
      fun h ↦ hplace (congrArg Slot.group h).symm
    simp [hplace, hslot]

/-- The types are those that were there, and the new one. -/
theorem types_insert_perm (hgroup : registry.groups[place]? = some group)
    (type : RegisteredType κ) :
    List.Perm (registry.insert ⟨place, group.types.length⟩ type).types
      (type :: registry.types) := by
  obtain ⟨hplace, hget⟩ := List.getElem?_eq_some_iff.mp hgroup
  have hsplit : registry.groups =
      registry.groups.take place ++ group :: registry.groups.drop (place + 1) := by
    rw [← hget, List.getElem_cons_drop, List.take_append_drop]
  show List.Perm ((registry.groups.modify place _).flatMap (·.types)) _
  rw [List.modify_eq_take_cons_drop hplace, hget, types]
  nth_rewrite 3 [hsplit]
  simp only [List.flatMap_append, List.flatMap_cons, List.append_assoc, List.singleton_append]
  refine (List.Perm.append_left _ List.perm_middle).trans ?_
  exact List.perm_middle

end Insert

/-! ### Consistency -/

/-- Everything in a registry stands where the indexes say, and nothing stands there twice. -/
structure IsConsistent [DecidableEq κ] (registry : Registry κ) : Prop where
  nodup_names : (registry.groups.map (·.name)).Nodup
  nodup_keys : (registry.types.map (·.key)).Nodup
  nodup_identifiers : (registry.types.map (·.identifier)).Nodup
  numbered : ∀ group ∈ registry.groups, ∀ position type, group.types[position]? = some type →
    position < capacity ∧ type.identifier.toNat = group.base.toNat + position
  byKey_iff : ∀ key slot, registry.byKey.find? key = some slot ↔
    ∃ type, registry.typeAt? slot = some type ∧ type.key = key
  byIdentifier_iff : ∀ identifier slot, registry.byIdentifier.find? identifier = some slot ↔
    ∃ type, registry.typeAt? slot = some type ∧ type.identifier = identifier
  size_byKey : registry.byKey.size = registry.types.length
  size_byIdentifier : registry.byIdentifier.size = registry.types.length

section Consistent

variable [DecidableEq κ] {registry : Registry κ}

theorem isConsistent_empty : (empty : Registry κ).IsConsistent where
  nodup_names := List.nodup_nil
  nodup_keys := List.nodup_nil
  nodup_identifiers := List.nodup_nil
  numbered := fun _ hgroup ↦ absurd hgroup (List.not_mem_nil)
  byKey_iff := fun _ _ ↦ by simp [empty, typeAt?, Index.find?_empty]
  byIdentifier_iff := fun _ _ ↦ by simp [empty, typeAt?, Index.find?_empty]
  size_byKey := rfl
  size_byIdentifier := rfl

/-- The registration of a key is the type with this key. -/
theorem IsConsistent.typeOf?_eq_some_iff (h : registry.IsConsistent) {key : κ}
    {type : RegisteredType κ} :
    registry.typeOf? key = some type ↔ type ∈ registry.types ∧ type.key = key := by
  rw [typeOf?, Option.bind_eq_some_iff, mem_types_iff]
  constructor
  · rintro ⟨slot, hslot, htype⟩
    obtain ⟨other, hother, hkey⟩ := (h.byKey_iff key slot).mp hslot
    rw [hother, Option.some.injEq] at htype
    subst htype
    exact ⟨⟨slot, hother⟩, hkey⟩
  · rintro ⟨⟨slot, hslot⟩, hkey⟩
    exact ⟨slot, (h.byKey_iff key slot).mpr ⟨type, hslot, hkey⟩, hslot⟩

/-- An identifier belongs to the type that has it. -/
theorem IsConsistent.typeWith?_eq_some_iff (h : registry.IsConsistent) {identifier : UInt32}
    {type : RegisteredType κ} :
    registry.typeWith? identifier = some type ↔
      type ∈ registry.types ∧ type.identifier = identifier := by
  rw [typeWith?, Option.bind_eq_some_iff, mem_types_iff]
  constructor
  · rintro ⟨slot, hslot, htype⟩
    obtain ⟨other, hother, hidentifier⟩ := (h.byIdentifier_iff identifier slot).mp hslot
    rw [hother, Option.some.injEq] at htype
    subst htype
    exact ⟨⟨slot, hother⟩, hidentifier⟩
  · rintro ⟨⟨slot, hslot⟩, hidentifier⟩
    exact ⟨slot, (h.byIdentifier_iff identifier slot).mpr ⟨type, hslot, hidentifier⟩, hslot⟩

/-- A key that no type has leads nowhere. -/
theorem IsConsistent.find?_byKey_eq_none (h : registry.IsConsistent) {key : κ}
    (hnew : key ∉ registry.types.map (·.key)) : registry.byKey.find? key = none := by
  rw [Option.eq_none_iff_forall_ne_some]
  intro slot hslot
  obtain ⟨type, htype, hkey⟩ := (h.byKey_iff key slot).mp hslot
  exact hnew (List.mem_map.mpr ⟨type, mem_types_iff.mpr ⟨slot, htype⟩, hkey⟩)

/-- An identifier that no type has leads nowhere. -/
theorem IsConsistent.find?_byIdentifier_eq_none (h : registry.IsConsistent) {identifier : UInt32}
    (hnew : identifier ∉ registry.types.map (·.identifier)) :
    registry.byIdentifier.find? identifier = none := by
  rw [Option.eq_none_iff_forall_ne_some]
  intro slot hslot
  obtain ⟨type, htype, hidentifier⟩ := (h.byIdentifier_iff identifier slot).mp hslot
  exact hnew (List.mem_map.mpr ⟨type, mem_types_iff.mpr ⟨slot, htype⟩, hidentifier⟩)

/-- No type has an identifier that leads nowhere. -/
theorem IsConsistent.identifier_ne (h : registry.IsConsistent) {identifier : UInt32}
    (hnone : registry.byIdentifier.find? identifier = none) {type : RegisteredType κ}
    (htype : type ∈ registry.types) : type.identifier ≠ identifier := by
  intro hsame
  obtain ⟨slot, hslot⟩ := mem_types_iff.mp htype
  have hfound := (h.byIdentifier_iff identifier slot).mpr ⟨type, hslot, hsame⟩
  rw [hnone] at hfound
  cases hfound

/-- Types with one identifier are one type. -/
theorem IsConsistent.eq_of_identifier_eq (h : registry.IsConsistent)
    {first second : RegisteredType κ} (hfirst : first ∈ registry.types)
    (hsecond : second ∈ registry.types) (hsame : first.identifier = second.identifier) :
    first = second :=
  List.inj_on_of_nodup_map h.nodup_identifiers hfirst hsecond hsame

/-! ### Opening a group -/

/-- A group with a new name keeps a registry consistent. -/
theorem IsConsistent.append (h : registry.IsConsistent) {name : String}
    (hname : name ∉ registry.groups.map (·.name)) (base : UInt32) :
    IsConsistent { registry with groups := registry.groups ++ [⟨name, base, []⟩] } where
  nodup_names := by
    rw [List.map_append, List.map_singleton]
    refine List.nodup_append.mpr ⟨h.nodup_names, List.nodup_singleton name, ?_⟩
    intro other hother new hnew hsame
    rw [hsame, List.mem_singleton.mp hnew] at hother
    exact hname hother
  nodup_keys := by
    rw [types_append]
    exact h.nodup_keys
  nodup_identifiers := by
    rw [types_append]
    exact h.nodup_identifiers
  numbered := by
    intro group hgroup position type htype
    rcases List.mem_append.mp hgroup with hold | hnew
    · exact h.numbered group hold position type htype
    · rw [List.mem_singleton.mp hnew] at htype
      cases htype
  byKey_iff := by
    intro key slot
    rw [typeAt?_append]
    exact h.byKey_iff key slot
  byIdentifier_iff := by
    intro identifier slot
    rw [typeAt?_append]
    exact h.byIdentifier_iff identifier slot
  size_byKey := by
    rw [types_append]
    exact h.size_byKey
  size_byIdentifier := by
    rw [types_append]
    exact h.size_byIdentifier

/-! ### Registering a type -/

/-- A group can take a type of the given key under the given identifier. -/
structure Admits (registry : Registry κ) (group : TypeGroup κ) (key : κ)
    (identifier : UInt32) : Prop where
  newKey : registry.byKey.find? key = none
  hasRoom : group.types.length < capacity
  identifier_eq : identifier.toNat = group.base.toNat + group.types.length
  newIdentifier : registry.byIdentifier.find? identifier = none

/-- A registration is checked step by step. -/
theorem run_enter {place : ℕ} {group : TypeGroup κ}
    (hgroup : registry.groups[place]? = some group) (registration : Registration κ) :
    (enter place registration).run registry =
      let name := TypeKeys.typeName registration.key
      if (registry.byKey.find? registration.key).isSome then
        .error (.duplicateType name group.name) registry
      else if capacity ≤ group.types.length ∨ UInt32.size ≤ group.next then
        .error (.groupFull group.name capacity) registry
      else match registry.byIdentifier.find? (UInt32.ofNat group.next) with
        | some owner => .error (.identifierTaken group.next name
            ((registry.typeAt? owner).elim "" (·.typeName))) registry
        | none => .ok (UInt32.ofNat group.next) (registry.insert ⟨place, group.types.length⟩
            ⟨registration, UInt32.ofNat group.next⟩) := by
  unfold enter TypeGroup.next
  simp only [EStateM.run_bind, EStateM.run_get, hgroup]
  by_cases hkey : (registry.byKey.find? registration.key).isSome
  · simp only [hkey, if_true]
    rfl
  · simp only [hkey]
    by_cases hfull : capacity ≤ group.types.length ∨
        UInt32.size ≤ group.base.toNat + group.types.length
    · simp only [hfull, if_true]
      rfl
    · simp only [hfull, if_false]
      cases hnumber : registry.byIdentifier.find?
          (UInt32.ofNat (group.base.toNat + group.types.length)) with
      | some owner => rfl
      | none => rfl

/-- A group registers what it can take. -/
theorem run_enter_of_admits {place : ℕ} {group : TypeGroup κ} {registration : Registration κ}
    {identifier : UInt32} (hgroup : registry.groups[place]? = some group)
    (hadmits : registry.Admits group registration.key identifier) :
    (enter place registration).run registry = .ok identifier
      (registry.insert ⟨place, group.types.length⟩ ⟨registration, identifier⟩) := by
  have hnext : group.next = identifier.toNat := hadmits.identifier_eq.symm
  have hroom : ¬ (capacity ≤ group.types.length ∨ UInt32.size ≤ group.next) := by
    rw [not_or, Nat.not_le, Nat.not_le, hnext]
    exact ⟨hadmits.hasRoom, identifier.toNat_lt⟩
  rw [run_enter hgroup]
  dsimp only
  rw [hadmits.newKey, if_neg (by decide), if_neg hroom, hnext, UInt32.ofNat_toNat,
    hadmits.newIdentifier]

/-- A registration is refused and changes nothing, or it puts a type behind the others of a group
that can take it. -/
theorem enter_cases (registry : Registry κ) (place : ℕ) (registration : Registration κ) :
    (∃ fault, (enter place registration).run registry = .error fault registry) ∨
      ∃ group identifier, registry.groups[place]? = some group ∧
        registry.Admits group registration.key identifier ∧
        (enter place registration).run registry = .ok identifier
          (registry.insert ⟨place, group.types.length⟩ ⟨registration, identifier⟩) := by
  cases hgroup : registry.groups[place]? with
  | none =>
    refine Or.inl ⟨.groupFull "" capacity, ?_⟩
    unfold enter
    simp only [EStateM.run_bind, EStateM.run_get, hgroup]
    rfl
  | some group =>
    rw [run_enter hgroup]
    dsimp only
    by_cases hkey : (registry.byKey.find? registration.key).isSome
    · rw [if_pos hkey]
      exact Or.inl ⟨_, rfl⟩
    · rw [if_neg hkey]
      by_cases hfull : capacity ≤ group.types.length ∨ UInt32.size ≤ group.next
      · rw [if_pos hfull]
        exact Or.inl ⟨_, rfl⟩
      · rw [if_neg hfull]
        rw [not_or, Nat.not_le, Nat.not_le] at hfull
        cases hnumber : registry.byIdentifier.find? (UInt32.ofNat group.next) with
        | some owner => exact Or.inl ⟨_, rfl⟩
        | none =>
          refine Or.inr ⟨group, _, rfl, ⟨?_, hfull.1, ?_, hnumber⟩, rfl⟩
          · rwa [Option.not_isSome_iff_eq_none] at hkey
          · exact UInt32.toNat_ofNat_of_lt hfull.2

/-- Registering a type leaves the names of the groups as they are. -/
theorem names_insert (registry : Registry κ) (slot : Slot) (type : RegisteredType κ) :
    (registry.insert slot type).groups.map (·.name) = registry.groups.map (·.name) := by
  apply List.ext_getElem?
  intro index
  simp only [Registry.insert, List.getElem?_map, List.getElem?_modify]
  cases registry.groups[index]? with
  | none => rfl
  | some other => by_cases hsame : slot.group = index <;> simp [hsame]

/-- An index that led to the slots of all types does so again when a type was added. -/
theorem find?_insert_iff {ι : Type} [DecidableEq ι] {label : RegisteredType κ → ι}
    {index : Index ι} {place : ℕ} {group : TypeGroup κ} {type : RegisteredType κ}
    (hindex : ∀ key slot, index.find? key = some slot ↔
      ∃ type, registry.typeAt? slot = some type ∧ label type = key)
    (hgroup : registry.groups[place]? = some group) (hnew : index.find? (label type) = none)
    (key : ι) (slot : Slot) :
    (index.insert (label type) ⟨place, group.types.length⟩).find? key = some slot ↔
      ∃ other, (registry.insert ⟨place, group.types.length⟩ type).typeAt? slot = some other ∧
        label other = key := by
  have hfree : registry.typeAt? ⟨place, group.types.length⟩ = none := by
    rw [typeAt?, hgroup, Option.bind_some, List.getElem?_eq_none (Nat.le_refl _)]
  rw [Index.find?_insert, typeAt?_insert hgroup]
  by_cases hkey : key = label type
  · rw [if_pos hkey, Option.some.injEq]
    constructor
    · intro hslot
      rw [if_pos hslot.symm]
      exact ⟨type, rfl, hkey.symm⟩
    · rintro ⟨other, hother, hlabel⟩
      by_contra hslot
      rw [if_neg (Ne.symm hslot)] at hother
      have hold := (hindex key slot).mpr ⟨other, hother, hlabel⟩
      rw [hkey, hnew] at hold
      cases hold
  · rw [if_neg hkey, hindex]
    by_cases hslot : slot = ⟨place, group.types.length⟩
    · rw [if_pos hslot, hslot, hfree]
      constructor
      · rintro ⟨_, hnone, _⟩
        cases hnone
      · rintro ⟨other, hother, hlabel⟩
        cases hother
        exact absurd hlabel.symm hkey
    · rw [if_neg hslot]

/-- The labels of the types stay different if the new one is not in the index. -/
theorem nodup_map_insert {ι : Type} [DecidableEq ι] {label : RegisteredType κ → ι}
    {index : Index ι} {place : ℕ} {group : TypeGroup κ} {type : RegisteredType κ}
    (hindex : ∀ key slot, index.find? key = some slot ↔
      ∃ type, registry.typeAt? slot = some type ∧ label type = key)
    (hnodup : (registry.types.map label).Nodup)
    (hgroup : registry.groups[place]? = some group) (hnew : index.find? (label type) = none) :
    ((registry.insert ⟨place, group.types.length⟩ type).types.map label).Nodup := by
  rw [((types_insert_perm hgroup type).map label).nodup_iff, List.map_cons, List.nodup_cons]
  refine ⟨?_, hnodup⟩
  intro hmem
  obtain ⟨other, hother, hlabel⟩ := List.mem_map.mp hmem
  obtain ⟨slot, hslot⟩ := mem_types_iff.mp hother
  have hfound := (hindex (label type) slot).mpr ⟨other, hslot, hlabel⟩
  rw [hnew] at hfound
  cases hfound

/-- A type that a group can take keeps the registry consistent. -/
theorem IsConsistent.insert (h : registry.IsConsistent) {place : ℕ} {group : TypeGroup κ}
    {type : RegisteredType κ} (hgroup : registry.groups[place]? = some group)
    (hadmits : registry.Admits group type.key type.identifier) :
    (registry.insert ⟨place, group.types.length⟩ type).IsConsistent where
  nodup_names := by
    rw [names_insert]
    exact h.nodup_names
  nodup_keys := nodup_map_insert h.byKey_iff h.nodup_keys hgroup hadmits.newKey
  nodup_identifiers :=
    nodup_map_insert h.byIdentifier_iff h.nodup_identifiers hgroup hadmits.newIdentifier
  numbered := by
    intro other hother position found hfound
    obtain ⟨index, hindex⟩ := List.mem_iff_getElem?.mp hother
    simp only [Registry.insert, List.getElem?_modify, Option.map_eq_map,
      Option.map_eq_some_iff] at hindex
    obtain ⟨old, hold, rfl⟩ := hindex
    by_cases hplace : place = index
    · rw [← hplace, hgroup, Option.some.injEq] at hold
      subst hold
      rw [if_pos hplace] at hfound ⊢
      rcases Nat.lt_trichotomy position group.types.length with hlt | heq | hgt
      · rw [List.getElem?_append_left hlt] at hfound
        exact h.numbered group (List.mem_of_getElem? hgroup) position found hfound
      · rw [heq, List.getElem?_concat_length, Option.some.injEq] at hfound
        rw [heq, ← hfound]
        exact ⟨hadmits.hasRoom, hadmits.identifier_eq⟩
      · rw [List.getElem?_eq_none] at hfound
        · cases hfound
        · rw [List.length_append, List.length_singleton]
          exact hgt
    · rw [if_neg hplace] at hfound ⊢
      exact h.numbered old (List.mem_of_getElem? hold) position found hfound
  byKey_iff := find?_insert_iff h.byKey_iff hgroup hadmits.newKey
  byIdentifier_iff := find?_insert_iff h.byIdentifier_iff hgroup hadmits.newIdentifier
  size_byKey := by
    rw [(types_insert_perm hgroup type).length_eq, List.length_cons, ← h.size_byKey]
    exact Index.size_insert hadmits.newKey _
  size_byIdentifier := by
    rw [(types_insert_perm hgroup type).length_eq, List.length_cons, ← h.size_byIdentifier]
    exact Index.size_insert hadmits.newIdentifier _

end Consistent

end Registry

end HuffmanCoding
