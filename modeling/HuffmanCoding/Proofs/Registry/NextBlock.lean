import HuffmanCoding.Proofs.Registry.Building
import HuffmanCoding.Registry.StoredTypes

/-!
# The next block of identifiers

A group that is not pinned takes the block that follows from the number of groups before it. As long
as no group is pinned, the blocks do not overlap (`Registry.IsCountedOff.owns`), so the next block
is vacant. A pinned group can have given away identifiers of that block, for nobody looks whether it
is vacant: the types of the next group are then refused from the first taken identifier on.

The main statement says that nothing else is in the way: in a vacant block no registration is
refused on account of its identifier, whatever is done there, and new types that are registered one
after the other are refused on this account exactly if a type has one of the identifiers that they
would take (`Registry.nextBlock_collides_iff`).
-/

set_option autoImplicit false
set_option relaxedAutoImplicit false

namespace HuffmanCoding

/-- The identifier of a type belongs to another one. -/
def RegistrationFault.IsCollision (fault : RegistrationFault) : Prop :=
  ∃ number typeName owner, fault = .identifierTaken number typeName owner

variable {κ : Type} [TypeKeys κ]

variable [DecidableEq κ]

/-- What the registrations of a block yield one after the other. -/
def Block.outcomes (place : ℕ) : Block κ → Registry κ → List (Except RegistrationFault UInt32)
  | .done, _ => []
  | .stop _, _ => []
  | .register registration next, registry =>
    match (Registry.enter place registration).run registry with
    | .ok identifier left => .ok identifier :: (next (.ok identifier)).outcomes place left
    | .error fault left => .error fault :: (next (.error fault)).outcomes place left

namespace Registry

variable {registry : Registry κ} {place : ℕ} {group : TypeGroup κ}

omit [DecidableEq κ] in
/-- A fault that is not about the identifier. -/
theorem not_isCollision {fault : RegistrationFault}
    (h : ∀ number typeName owner, fault ≠ .identifierTaken number typeName owner) :
    ¬ fault.IsCollision := by
  rintro ⟨number, typeName, owner, rfl⟩
  exact h number typeName owner rfl

/-! ### Blocks that belong to their group -/

omit [DecidableEq κ] in
/-- The identifiers in the block of a group are those of its own types, or of none. -/
def Owns (registry : Registry κ) (place : ℕ) : Prop :=
  ∀ group, registry.groups[place]? = some group → ∀ slot type,
    registry.typeAt? slot = some type → group.base.toNat ≤ type.identifier.toNat →
      type.identifier.toNat < group.base.toNat + capacity → slot.group = place

/-- The next identifier in a block that belongs to its group is free. -/
theorem Owns.find?_eq_none (h : registry.Owns place) (hconsistent : registry.IsConsistent)
    (hgroup : registry.groups[place]? = some group) (hroom : group.types.length < capacity)
    (hsmall : group.next < UInt32.size) :
    registry.byIdentifier.find? (UInt32.ofNat group.next) = none := by
  rw [Option.eq_none_iff_forall_ne_some]
  intro slot hslot
  obtain ⟨type, htype, hidentifier⟩ := (hconsistent.byIdentifier_iff _ slot).mp hslot
  have hnumber : type.identifier.toNat = group.base.toNat + group.types.length := by
    rw [hidentifier, UInt32.toNat_ofNat_of_lt' hsmall, TypeGroup.next]
  have hplace : slot.group = place := h group hgroup slot type htype (by omega) (by omega)
  obtain ⟨own, hown, hposition⟩ := Option.bind_eq_some_iff.mp htype
  rw [hplace, hgroup, Option.some.injEq] at hown
  subst hown
  have hcounted := (hconsistent.numbered group (List.mem_of_getElem? hgroup) _ type hposition).2
  have hlt := (List.getElem?_eq_some_iff.mp hposition).1
  omega

/-- A type that is registered in the group leaves the block to the group. -/
theorem Owns.insert (h : registry.Owns place) (hgroup : registry.groups[place]? = some group)
    (type : RegisteredType κ) :
    (registry.insert ⟨place, group.types.length⟩ type).Owns place := by
  intro grown hgrown slot other hother hle hlt
  rw [Registry.insert, List.getElem?_modify_eq, hgroup] at hgrown
  cases hgrown
  rw [typeAt?_insert hgroup] at hother
  split_ifs at hother with hslot
  · rw [hslot]
  · exact h group hgroup slot other hother hle hlt

/-- In a block that belongs to its group, no type is refused on account of its identifier. -/
theorem Owns.not_isCollision (h : registry.Owns place) (hconsistent : registry.IsConsistent)
    {registration : Registration κ} {fault : RegistrationFault} {left : Registry κ}
    (hrun : (enter place registration).run registry = .error fault left) :
    ¬ fault.IsCollision := by
  cases hgroup : registry.groups[place]? with
  | none =>
    unfold enter at hrun
    simp only [EStateM.run_bind, EStateM.run_get, hgroup] at hrun
    cases hrun
    exact Registry.not_isCollision (by simp)
  | some group =>
    rw [run_enter hgroup] at hrun
    dsimp only at hrun
    split_ifs at hrun with hkey hfull
    · cases hrun
      exact Registry.not_isCollision (by simp)
    · cases hrun
      exact Registry.not_isCollision (by simp)
    · rw [not_or, Nat.not_le, Nat.not_le] at hfull
      rw [h.find?_eq_none hconsistent hgroup hfull.1 hfull.2] at hrun
      cases hrun

/-- Whatever a block does with a group, no identifier is in its way if the block of identifiers
belongs to the group. -/
theorem Owns.outcomes (h : registry.Owns place) (hreached : registry.Reached) (block : Block κ)
    {fault : RegistrationFault} (hfault : .error fault ∈ block.outcomes place registry) :
    ¬ fault.IsCollision := by
  induction block generalizing registry with
  | done => cases hfault
  | stop other => cases hfault
  | register registration next ih =>
    have hnext := hreached.entered place registration
    rw [Block.outcomes] at hfault
    rcases enter_cases registry place registration with
      ⟨other, hrun⟩ | ⟨group, identifier, hgroup, _, hrun⟩
    · rw [hrun] at hfault hnext
      rcases List.mem_cons.mp hfault with hhead | htail
      · cases hhead
        exact h.not_isCollision hreached.isConsistent hrun
      · exact ih _ h hnext htail
    · rw [hrun] at hfault hnext
      rcases List.mem_cons.mp hfault with hhead | htail
      · cases hhead
      · exact ih _ (h.insert hgroup _) hnext htail

/-! ### Vacant blocks -/

omit [DecidableEq κ] in
/-- No type has an identifier in the block that starts at a given one. -/
def IsVacant (registry : Registry κ) (base : UInt32) : Prop :=
  ∀ type ∈ registry.types, type.identifier.toNat < base.toNat ∨
    base.toNat + capacity ≤ type.identifier.toNat

omit [DecidableEq κ] in
/-- A vacant block belongs to the group that is opened there. -/
theorem IsVacant.owns {base : UInt32} (h : registry.IsVacant base) (name : String) :
    Owns { registry with groups := registry.groups ++ [⟨name, base, []⟩] }
      registry.groups.length := by
  intro group hgroup slot type htype hle hlt
  rw [List.getElem?_concat_length, Option.some.injEq] at hgroup
  subst hgroup
  rw [typeAt?_append] at htype
  rcases h type (mem_types_iff.mpr ⟨slot, htype⟩) with hbelow | habove
  · exact absurd hle (Nat.not_le.mpr hbelow)
  · exact absurd hlt (Nat.not_lt.mpr habove)

/-- A group that has room registers a new type, unless the next number is no identifier or belongs
to a type. -/
theorem enter_newKey_cases (hconsistent : registry.IsConsistent)
    (hgroup : registry.groups[place]? = some group) (hroom : group.types.length < capacity)
    {registration : Registration κ} (hkey : registration.key ∉ registry.types.map (·.key)) :
    (UInt32.size ≤ group.next ∧ (enter place registration).run registry =
      .error (.groupFull group.name capacity) registry) ∨
    ((∃ type ∈ registry.types, type.identifier.toNat = group.next) ∧
      ∃ fault, fault.IsCollision ∧
        (enter place registration).run registry = .error fault registry) ∨
    ∃ identifier, identifier.toNat = group.next ∧
      (∀ type ∈ registry.types, type.identifier.toNat ≠ group.next) ∧
      (enter place registration).run registry = .ok identifier
        (registry.insert ⟨place, group.types.length⟩ ⟨registration, identifier⟩) := by
  have hrun := run_enter hgroup registration
  dsimp only at hrun
  rw [hconsistent.find?_byKey_eq_none hkey, if_neg (by decide)] at hrun
  by_cases hlarge : UInt32.size ≤ group.next
  · rw [if_pos (Or.inr hlarge)] at hrun
    exact Or.inl ⟨hlarge, hrun⟩
  · rw [if_neg (not_or.mpr ⟨Nat.not_le.mpr hroom, hlarge⟩)] at hrun
    have hnumber : (UInt32.ofNat group.next).toNat = group.next :=
      UInt32.toNat_ofNat_of_lt' (Nat.not_le.mp hlarge)
    cases hfound : registry.byIdentifier.find? (UInt32.ofNat group.next) with
    | some owner =>
      rw [hfound] at hrun
      obtain ⟨type, htype, hidentifier⟩ := (hconsistent.byIdentifier_iff _ owner).mp hfound
      refine Or.inr (Or.inl ⟨⟨type, mem_types_iff.mpr ⟨owner, htype⟩, ?_⟩, _, ?_, hrun⟩)
      · rw [hidentifier]
        exact hnumber
      · exact ⟨_, _, _, rfl⟩
    | none =>
      refine Or.inr (Or.inr ⟨UInt32.ofNat group.next, hnumber, ?_, ?_⟩)
      · intro type htype hsame
        refine hconsistent.identifier_ne hfound htype ?_
        rw [← hsame, UInt32.ofNat_toNat]
      · rw [hrun, hfound]

/-- New types that are registered one after the other are refused on account of an identifier
exactly if one of the identifiers that they would take belongs to a type. -/
theorem run_ofList_collides_iff (hreached : registry.Reached)
    (hgroup : registry.groups[place]? = some group) {registrations : List (Registration κ)}
    (hcount : group.types.length + registrations.length ≤ capacity)
    (hkeys : (registry.types.map (·.key) ++ registrations.map (·.key)).Nodup) :
    (∃ fault left, ((Block.ofList registrations).run place).run registry = .error fault left ∧
        fault.IsCollision) ↔
      ∃ type ∈ registry.types, group.next ≤ type.identifier.toNat ∧
        type.identifier.toNat < group.next + registrations.length := by
  induction registrations generalizing registry group with
  | nil =>
    constructor
    · rintro ⟨fault, left, hrun, _⟩
      cases hrun
    · rintro ⟨type, _, hle, hlt⟩
      exact absurd hle (Nat.not_le.mpr hlt)
  | cons registration rest ih =>
    rw [List.length_cons] at hcount ⊢
    rw [List.map_cons, List.nodup_middle, List.nodup_cons] at hkeys
    have hnew : registration.key ∉ registry.types.map (·.key) :=
      fun hmem ↦ hkeys.1 (List.mem_append_left _ hmem)
    rw [Block.ofList]
    rcases enter_newKey_cases hreached.isConsistent hgroup (by omega) hnew with
      ⟨hlarge, hrun⟩ | ⟨⟨type, htype, hnumber⟩, fault, hcollision, hrun⟩ |
        ⟨identifier, hnumber, hfree, hrun⟩
    · rw [run_register_of_error hrun]
      constructor
      · rintro ⟨fault, left, hstop, hcollision⟩
        cases hstop
        exact absurd hcollision (Registry.not_isCollision (by simp))
      · rintro ⟨type, _, hle, _⟩
        exact absurd (Nat.le_trans hlarge hle) (Nat.not_le.mpr type.identifier.toNat_lt)
    · rw [run_register_of_error hrun]
      exact iff_of_true ⟨fault, registry, rfl, hcollision⟩ ⟨type, htype, by omega, by omega⟩
    · have hreached' := hreached.entered place registration
      rw [hrun] at hreached'
      have hperm := types_insert_perm hgroup ⟨registration, identifier⟩
      have hkeys' := ((hperm.map (·.key)).append_right (rest.map (·.key))).nodup_iff.mpr
        (List.nodup_cons.mpr hkeys)
      have hgroup' := getElem?_insert_self hgroup group.types.length ⟨registration, identifier⟩
      have hnext := group.next_append ⟨registration, identifier⟩
      rw [run_register_of_ok hrun]
      refine (ih hreached' hgroup' ?_ hkeys').trans ?_
      · rw [List.length_append, List.length_singleton]
        omega
      · rw [hnext]
        constructor
        · rintro ⟨type, htype, hle, hlt⟩
          rcases List.mem_cons.mp (hperm.mem_iff.mp htype) with rfl | hold
          · exact absurd hnumber (Nat.ne_of_gt hle)
          · exact ⟨type, hold, by omega, by omega⟩
        · rintro ⟨type, htype, hle, hlt⟩
          have hother := hfree type htype
          exact ⟨type, hperm.mem_iff.mpr (List.mem_cons_of_mem _ htype), by omega, by omega⟩

/-! ### Groups that are not pinned -/

omit [DecidableEq κ] in
/-- The blocks of the groups are counted off by the groups before them. -/
def IsCountedOff (registry : Registry κ) : Prop :=
  ∀ (place : ℕ) (group : TypeGroup κ), registry.groups[place]? = some group →
    group.base = UInt32.ofNat (100 + place * capacity)

/-- The number of blocks that start at an identifier. -/
def blockCount : ℕ := UInt32.size / capacity - 1

/-- So many blocks are counted off without a gap. -/
theorem toNat_ofNat_block (h : place < blockCount) :
    (UInt32.ofNat (100 + place * capacity)).toNat = 100 + place * capacity := by
  refine UInt32.toNat_ofNat_of_lt' ?_
  have hplace : place < 67108863 := h
  show 100 + place * 64 < 4294967296
  omega

omit [DecidableEq κ] in
theorem isCountedOff_empty : (empty : Registry κ).IsCountedOff :=
  fun _ _ hgroup ↦ by cases hgroup

omit [DecidableEq κ] in
theorem IsCountedOff.append (h : registry.IsCountedOff) (name : String) :
    IsCountedOff { registry with
      groups := registry.groups ++ [⟨name, registry.nextBase, []⟩] } := by
  intro place group hgroup
  rcases Nat.lt_or_ge place registry.groups.length with hold | hnew
  · exact h place group ((List.getElem?_append_left hold).symm.trans hgroup)
  · have hplace : place = registry.groups.length := by
      have hlt := (List.getElem?_eq_some_iff.mp hgroup).1
      rw [List.length_append, List.length_singleton] at hlt
      omega
    rw [hplace, List.getElem?_concat_length, Option.some.injEq] at hgroup
    rw [← hgroup, hplace]
    rfl

theorem IsCountedOff.entered (h : registry.IsCountedOff) (place : ℕ)
    (registration : Registration κ) :
    IsCountedOff (leftBy ((enter place registration).run registry)) := by
  rcases enter_cases registry place registration with ⟨fault, hrun⟩ | ⟨group, _, _, _, hrun⟩
  · rw [hrun]
    exact h
  · rw [hrun]
    intro other grown hgrown
    obtain ⟨old, hold, rfl⟩ := Option.map_eq_some_iff.mp ((getElem?_insert ..).symm.trans hgrown)
    have hbase := h other old hold
    split_ifs
    · exact hbase
    · exact hbase

/-- Groups that are not pinned have blocks that are counted off. -/
theorem IsCountedOff.calls {calls : List (GroupCall κ)} {left : Registry κ}
    (h : registry.IsCountedOff) (hunpinned : ∀ call ∈ calls, call.pinned = none)
    (hrun : (calls.forM GroupCall.perform).run registry = .ok () left) :
    left.IsCountedOff ∧ left.groups.length = registry.groups.length + calls.length := by
  induction calls generalizing registry with
  | nil =>
    cases hrun
    exact ⟨h, rfl⟩
  | cons call calls ih =>
    obtain ⟨hcall, hcalls⟩ := List.forall_mem_cons.mp hunpinned
    obtain ⟨next, hnext, hrest⟩ := run_bind_eq_ok_iff.mp hrun
    rw [GroupCall.perform, hcall] at hnext
    have hblock := leftBy_run_block IsCountedOff call.block registry.groups.length
      (fun registration _ _ hleft ↦ hleft.entered _ registration) (h.append call.name)
    rw [(run_addGroupAt_eq_ok_iff.mp hnext).2] at hblock
    have hcounted : next.IsCountedOff := hblock
    obtain ⟨hleft, hcount⟩ := ih hcounted hcalls hrest
    refine ⟨hleft, ?_⟩
    rw [hcount, length_of_run_addGroupAt hnext, List.length_cons]
    omega

/-- Where few blocks are counted off, an identifier tells the slot of its type. -/
theorem IsCountedOff.identifier_eq (h : registry.IsCountedOff)
    (hconsistent : registry.IsConsistent) (hcount : registry.groups.length ≤ blockCount)
    {slot : Slot} {type : RegisteredType κ} (htype : registry.typeAt? slot = some type) :
    slot.group < registry.groups.length ∧ slot.position < capacity ∧
      type.identifier.toNat = 100 + slot.group * capacity + slot.position := by
  obtain ⟨group, hgroup, hposition⟩ := Option.bind_eq_some_iff.mp htype
  have hlt := (List.getElem?_eq_some_iff.mp hgroup).1
  obtain ⟨hroom, hnumber⟩ :=
    hconsistent.numbered group (List.mem_of_getElem? hgroup) slot.position type hposition
  refine ⟨hlt, hroom, ?_⟩
  rw [hnumber, h slot.group group hgroup, toNat_ofNat_block (Nat.lt_of_lt_of_le hlt hcount)]

/-- Blocks that are counted off belong to their groups. -/
theorem IsCountedOff.owns (h : registry.IsCountedOff) (hconsistent : registry.IsConsistent)
    (hcount : registry.groups.length ≤ blockCount) (place : ℕ) : registry.Owns place := by
  intro group hgroup slot type htype hle hlt
  have hplace := (List.getElem?_eq_some_iff.mp hgroup).1
  obtain ⟨_, hroom, hnumber⟩ := h.identifier_eq hconsistent hcount htype
  rw [h place group hgroup, toNat_ofNat_block (Nat.lt_of_lt_of_le hplace hcount)] at hle hlt
  unfold capacity at *
  omega

/-- Behind blocks that are counted off, the next block is vacant. -/
theorem IsCountedOff.isVacant (h : registry.IsCountedOff) (hconsistent : registry.IsConsistent)
    (hcount : registry.groups.length < blockCount) : registry.IsVacant registry.nextBase := by
  intro type htype
  obtain ⟨slot, hslot⟩ := mem_types_iff.mp htype
  obtain ⟨hplace, hroom, hnumber⟩ := h.identifier_eq hconsistent (Nat.le_of_lt hcount) hslot
  refine Or.inl ?_
  rw [nextBase, toNat_ofNat_block hcount, hnumber]
  unfold capacity at *
  omega

/-! ### Collisions -/

/-- A registry that calls build comes about step by step. -/
theorem reached_of_calls {calls : List (GroupCall κ)} {left : Registry κ}
    (h : empty.after (calls.forM GroupCall.perform) = .ok left) : left.Reached := by
  have hreached := Reached.empty.calls calls
  rw [after_eq_ok_iff.mp h] at hreached
  exact hreached

/-- New types in a new group behind the others are refused on account of an identifier exactly if
one of the identifiers that they would take belongs to a type. -/
theorem addGroup_collides_iff (hreached : registry.Reached) {name : String}
    (hname : name ∉ registry.groups.map (·.name)) {registrations : List (Registration κ)}
    (hcount : registrations.length ≤ capacity)
    (hkeys : (registry.types.map (·.key) ++ registrations.map (·.key)).Nodup) :
    (∃ fault, registry.after (addGroup name (.ofList registrations)) = .error fault ∧
        fault.IsCollision) ↔
      ∃ type ∈ registry.types, registry.nextBase.toNat ≤ type.identifier.toNat ∧
        type.identifier.toNat < registry.nextBase.toNat + registrations.length := by
  have hopened := hreached.opened hname registry.nextBase
  have hroom : ([] : List (RegisteredType κ)).length + registrations.length ≤ capacity := by
    rw [List.length_nil, Nat.zero_add]
    exact hcount
  rw [← types_append registry name registry.nextBase] at hkeys
  have hiff := run_ofList_collides_iff hopened List.getElem?_concat_length hroom hkeys
  rw [types_append] at hiff
  refine Iff.trans ?_ hiff
  have hrun : (addGroup name (.ofList registrations)).run registry = _ :=
    run_addGroupAt_of_notMem hname registry.nextBase (.ofList registrations)
  simp only [after, hrun]
  cases ((Block.ofList registrations).run registry.groups.length).run
      { registry with groups := registry.groups ++ [⟨name, registry.nextBase, []⟩] } with
  | ok value left => simp
  | error fault left => simp

/-- After any calls, a group with a new name that is not pinned finds no identifier taken if the
next block is vacant, whatever its block does. New types that are registered one after the other are
refused on account of an identifier exactly if one of the identifiers that they would take belongs
to a type. If no group was pinned, the next block is vacant. -/
theorem nextBlock_collides_iff (calls : List (GroupCall κ)) (registry : Registry κ)
    (h : empty.after (calls.forM GroupCall.perform) = .ok registry) :
    (∀ name, name ∉ registry.groups.map (·.name) →
      (registry.IsVacant registry.nextBase → ∀ (block : Block κ) (fault : RegistrationFault),
        .error fault ∈ block.outcomes registry.groups.length
          { registry with groups := registry.groups ++ [⟨name, registry.nextBase, []⟩] } →
            ¬ fault.IsCollision) ∧
      ∀ registrations : List (Registration κ), registrations.length ≤ capacity →
        (registry.types.map (·.key) ++ registrations.map (·.key)).Nodup →
          ((∃ fault, registry.after (addGroup name (.ofList registrations)) = .error fault ∧
              fault.IsCollision) ↔
            ∃ type ∈ registry.types, registry.nextBase.toNat ≤ type.identifier.toNat ∧
              type.identifier.toNat < registry.nextBase.toNat + registrations.length)) ∧
    ((∀ call ∈ calls, call.pinned = none) → calls.length < blockCount →
      registry.IsVacant registry.nextBase) := by
  have hreached := reached_of_calls h
  refine ⟨fun name hname ↦ ⟨fun hvacant block fault hfault ↦ ?_, fun registrations ↦ ?_⟩,
    fun hunpinned hcount ↦ ?_⟩
  · exact (hvacant.owns name).outcomes (hreached.opened hname _) block hfault
  · exact addGroup_collides_iff hreached hname
  · obtain ⟨hcounted, hlength⟩ := isCountedOff_empty.calls hunpinned (after_eq_ok_iff.mp h)
    refine hcounted.isVacant hreached.isConsistent ?_
    rw [hlength, show (empty : Registry κ).groups.length = 0 from rfl, Nat.zero_add]
    exact hcount

/-- A group of one type, pinned to the block that comes after the first one. -/
def pinnedCall : GroupCall StoredType :=
  ⟨"pinned", some 164, .ofList [.plain .codeword]⟩

/-- Behind a group that is not pinned, another type finds its identifier free, and so does a block
that registers a type twice. Behind the pinned group, a new type is refused. -/
theorem nextBlock_collides_iff_of_two_registries :
    ∃ counted pinned : Registry StoredType,
      empty.after ([⟨"first", none, .ofList [.plain .codeword]⟩].forM GroupCall.perform) =
        .ok counted ∧
      empty.after ([pinnedCall].forM GroupCall.perform) = .ok pinned ∧
      counted.IsVacant counted.nextBase ∧
      (∀ fault, .error fault ∈ Block.outcomes 1
        (.register (.plain .config) fun _ ↦ .register (.plain .config) fun _ ↦ .done)
          { counted with groups := counted.groups ++ [⟨"next", counted.nextBase, []⟩] } →
            ¬ fault.IsCollision) ∧
      ∃ fault, pinned.after (addGroup "next" (.ofList [.plain .config])) = .error fault ∧
        fault.IsCollision := by
  obtain ⟨hcounted, hunpinned⟩ :=
    nextBlock_collides_iff [⟨"first", none, .ofList [.plain StoredType.codeword]⟩] _ rfl
  obtain ⟨hpinned, _⟩ := nextBlock_collides_iff [pinnedCall] _ rfl
  have hvacant := hunpinned (by simp) (by decide)
  exact ⟨_, _, rfl, rfl, hvacant, (hcounted "next" (by decide)).1 hvacant _,
    ((hpinned "next" (by decide)).2 [.plain .config] (by decide)
      (by decide)).mpr ⟨_, List.mem_singleton_self _, by decide, by decide⟩⟩

/-- Behind the pinned group, the next block starts with the identifier that the group gave away, so
a new type is refused although there is a vacant block. -/
theorem nextBlock_collides_behind_pinnedCall :
    ∃ registry : Registry StoredType,
      empty.after ([pinnedCall].forM GroupCall.perform) = .ok registry ∧
      "next" ∉ registry.groups.map (·.name) ∧
      (registry.types.map (·.key) ++ [StoredType.config]).Nodup ∧
      registry.after (addGroup "next" (.ofList [.plain .config])) =
        .error (.identifierTaken 164 "CodecConfig" "Code") ∧
      registry.IsVacant 228 := by
  refine ⟨_, rfl, by decide, by decide, rfl, ?_⟩
  intro type htype
  rw [List.mem_singleton.mp htype]
  exact Or.inl (by decide)

end Registry

end HuffmanCoding
