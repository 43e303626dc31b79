import HuffmanCoding.Proofs.Registry.Building
import HuffmanCoding.Registry.StoredTypes

/-!
# The published identifiers

Registering new types one after the other at the end of the group that was opened last succeeds as
long as the block of the group has room, and the types take the next identifiers in their order
(`Registry.run_ofList`). So the registry of this library comes about, and its types have the
identifiers that are published: those from 100 on in the group of the codecs, and those from 164 on
in the group of the streams (`StoredType.exists_registry`).
-/

set_option autoImplicit false
set_option relaxedAutoImplicit false

namespace HuffmanCoding

namespace Registry

variable {κ : Type} [TypeKeys κ]

/-- The types of some registrations, with the identifiers from a number on. -/
def numbered (number : ℕ) : List (Registration κ) → List (RegisteredType κ)
  | [] => []
  | registration :: rest => ⟨registration, UInt32.ofNat number⟩ :: numbered (number + 1) rest

theorem getElem?_numbered (number index : ℕ) (registrations : List (Registration κ)) :
    (numbered number registrations)[index]? =
      registrations[index]?.map fun registration ↦
        ⟨registration, UInt32.ofNat (number + index)⟩ := by
  induction registrations generalizing number index with
  | nil => rfl
  | cons registration rest ih =>
    cases index with
    | zero => rfl
    | succ index =>
      rw [numbered, List.getElem?_cons_succ, List.getElem?_cons_succ, ih]
      congr 2
      funext other
      rw [Nat.add_right_comm, Nat.add_assoc]

/-- The identifiers end where the numbers do. -/
theorem identifier_lt_of_mem_numbered {number : ℕ} {registrations : List (Registration κ)}
    {type : RegisteredType κ} (h : type ∈ numbered number registrations) :
    type.identifier.toNat < number + registrations.length := by
  obtain ⟨index, hindex⟩ := List.mem_iff_getElem?.mp h
  rw [getElem?_numbered, Option.map_eq_some_iff] at hindex
  obtain ⟨registration, hregistration, rfl⟩ := hindex
  have hlt := (List.getElem?_eq_some_iff.mp hregistration).1
  have hle : (UInt32.ofNat (number + index)).toNat ≤ number + index := Nat.mod_le _ _
  show (UInt32.ofNat (number + index)).toNat < _
  omega

theorem map_key_numbered (number : ℕ) (registrations : List (Registration κ)) :
    (numbered number registrations).map (·.key) = registrations.map (·.key) := by
  induction registrations generalizing number with
  | nil => rfl
  | cons registration rest ih => rw [numbered, List.map_cons, ih, List.map_cons]

variable [DecidableEq κ]

/-- The group at a place can take a number of types, and all identifiers that were given away are
below the ones that it gives away next. -/
structure HasRoom (registry : Registry κ) (place number count : ℕ) : Prop where
  group : ∃ group, registry.groups[place]? = some group ∧
    group.base.toNat + group.types.length = number ∧ group.types.length + count ≤ capacity
  small : number + count ≤ UInt32.size
  last : ∀ type ∈ registry.types, type.identifier.toNat < number

variable {registry : Registry κ} {place number count : ℕ}

omit [DecidableEq κ] in
/-- The next number of a group with room is an identifier. -/
theorem HasRoom.toNat_ofNat (h : registry.HasRoom place number (count + 1)) :
    (UInt32.ofNat number).toNat = number := by
  have hsmall := h.small
  exact UInt32.toNat_ofNat_of_lt' (by omega)

/-- A group with room can take a new type under the next number. -/
theorem HasRoom.exists_admits (h : registry.HasRoom place number (count + 1))
    (hreached : registry.Reached) {key : κ} (hkey : key ∉ registry.types.map (·.key)) :
    ∃ group, registry.groups[place]? = some group ∧
      registry.Admits group key (UInt32.ofNat number) := by
  have hidentifier := h.toNat_ofNat
  obtain ⟨⟨group, hgroup, hnumber, hcount⟩, _, hlast⟩ := h
  have hnew : UInt32.ofNat number ∉ registry.types.map (·.identifier) := by
    intro hmem
    obtain ⟨type, htype, hsame⟩ := List.mem_map.mp hmem
    have hlt := hlast type htype
    rw [hsame, hidentifier] at hlt
    exact Nat.lt_irrefl _ hlt
  exact ⟨group, hgroup, hreached.isConsistent.find?_byKey_eq_none hkey, by omega,
    by rw [hidentifier, hnumber], hreached.isConsistent.find?_byIdentifier_eq_none hnew⟩

/-- The group has room for the rest when it took a type under the next number. -/
theorem HasRoom.insert (h : registry.HasRoom place number (count + 1)) {group : TypeGroup κ}
    (hgroup : registry.groups[place]? = some group) (registration : Registration κ) :
    HasRoom (registry.insert ⟨place, group.types.length⟩ ⟨registration, UInt32.ofNat number⟩)
      place (number + 1) count := by
  have hidentifier := h.toNat_ofNat
  obtain ⟨⟨other, hother, hnumber, hcount⟩, hsmall, hlast⟩ := h
  rw [hgroup, Option.some.injEq] at hother
  subst hother
  have hlength (type : RegisteredType κ) :
      (group.types ++ [type]).length = group.types.length + 1 := by
    rw [List.length_append, List.length_singleton]
  refine ⟨⟨{ group with types := group.types ++ [⟨registration, UInt32.ofNat number⟩] },
    ?_, ?_, ?_⟩, by omega, ?_⟩
  · exact getElem?_insert_self hgroup _ _
  · show group.base.toNat + (group.types ++ [_]).length = _
    rw [hlength]
    omega
  · rw [hlength]
    omega
  · intro type htype
    rcases List.mem_cons.mp ((types_insert_perm hgroup _).mem_iff.mp htype) with rfl | hold
    · rw [hidentifier]
      exact Nat.lt_succ_self _
    · exact Nat.lt_succ_of_lt (hlast type hold)

/-- New types that are registered one after the other take the next identifiers in their order. -/
theorem run_ofList (h : registry.Reached) {registrations : List (Registration κ)}
    (hroom : registry.HasRoom place number registrations.length)
    (hkeys : (registry.types.map (·.key) ++ registrations.map (·.key)).Nodup) :
    ∃ left, ((Block.ofList registrations).run place).run registry = .ok () left ∧
      left.Reached ∧ left.groups.map (·.name) = registry.groups.map (·.name) ∧
      left.types.Perm (registry.types ++ numbered number registrations) := by
  induction registrations generalizing registry number with
  | nil => exact ⟨registry, rfl, h, rfl, by rw [numbered, List.append_nil]⟩
  | cons registration rest ih =>
    rw [List.map_cons, List.nodup_middle, List.nodup_cons] at hkeys
    obtain ⟨group, hgroup, hadmits⟩ :=
      hroom.exists_admits h fun hmem ↦ hkeys.1 (List.mem_append_left _ hmem)
    have hrun := run_enter_of_admits hgroup hadmits
    have hreached := h.entered place registration
    rw [hrun] at hreached
    have hperm := types_insert_perm hgroup ⟨registration, UInt32.ofNat number⟩
    have hrest := ((hperm.map (·.key)).append_right (rest.map (·.key))).nodup_iff.mpr
      (List.nodup_cons.mpr hkeys)
    obtain ⟨left, hleft, hend, hnames, htypes⟩ :=
      ih hreached (hroom.insert hgroup registration) hrest
    refine ⟨left, (run_register_of_ok hrun _).trans hleft, hend, ?_, ?_⟩
    · rw [hnames]
      exact names_insert _ _ _
    · refine htypes.trans ((hperm.append_right _).trans ?_)
      exact List.perm_middle.symm

/-- A group with a new name is opened behind the others, and new types take the first identifiers of
its block, if no type has one of these or a greater one. -/
theorem run_addGroup_ofList (h : registry.Reached) {name : String}
    (hname : name ∉ registry.groups.map (·.name)) {base : UInt32} (hbase : registry.nextBase = base)
    {registrations : List (Registration κ)} (hcount : registrations.length ≤ capacity)
    (hsmall : base.toNat + registrations.length ≤ UInt32.size)
    (hlast : ∀ type ∈ registry.types, type.identifier.toNat < base.toNat)
    (hkeys : (registry.types.map (·.key) ++ registrations.map (·.key)).Nodup) :
    ∃ left, (addGroup name (.ofList registrations)).run registry = .ok () left ∧
      left.Reached ∧ left.groups.map (·.name) = registry.groups.map (·.name) ++ [name] ∧
      left.types.Perm (registry.types ++ numbered base.toNat registrations) := by
  have hopened := h.opened hname base
  have htypes := types_append registry name base
  have hroom : HasRoom { registry with groups := registry.groups ++ [⟨name, base, []⟩] }
      registry.groups.length base.toNat registrations.length := by
    refine ⟨⟨_, List.getElem?_concat_length, rfl, ?_⟩, hsmall, ?_⟩
    · rwa [List.length_nil, Nat.zero_add]
    · rw [htypes]
      exact hlast
  obtain ⟨left, hrun, hreached, hnames, hperm⟩ :=
    run_ofList hopened hroom (by rw [htypes]; exact hkeys)
  refine ⟨left, ?_, hreached, ?_, ?_⟩
  · show (addGroupAt name registry.nextBase _).run registry = _
    rw [hbase, run_addGroupAt_of_notMem hname]
    exact hrun
  · rw [hnames, List.map_append, List.map_singleton]
  · rwa [htypes] at hperm

end Registry

namespace StoredType

open Registry

variable {Host : Type} [TypeKeys Host] [DecidableEq Host]

omit [DecidableEq Host] in
theorem key_registration (type : StoredType) :
    (registration type : Registration (StoredType ⊕ Host)).key = .inl type := by
  unfold registration
  split_ifs with hcodeword
  · rw [hcodeword]
    rfl
  · rfl

def registrations (Host : Type) [TypeKeys Host] (types : List StoredType) :
    List (Registration (StoredType ⊕ Host)) :=
  types.map registration

omit [DecidableEq Host] in
theorem map_key_registrations (types : List StoredType) :
    (registrations Host types).map (·.key) = types.map .inl := by
  rw [registrations, List.map_map]
  exact List.map_congr_left fun type _ ↦ key_registration type

omit [DecidableEq Host] in
/-- A stored type takes the identifier of its place. -/
theorem mem_numbered {types : List StoredType} {index : ℕ} {type : StoredType}
    (h : types[index]? = some type) (number : ℕ) :
    ⟨registration type, UInt32.ofNat (number + index)⟩ ∈
      numbered number (registrations Host types) := by
  refine List.mem_of_getElem? (i := index) ?_
  rw [getElem?_numbered, registrations, List.getElem?_map, h]
  rfl

/-- The types in a registry are the published ones, with the published identifiers. -/
structure IsLibrary (library : Registry (StoredType ⊕ Host)) : Prop where
  reached : library.Reached
  types_perm : library.types.Perm (numbered 100 (registrations Host codecTypes) ++
    numbered 164 (registrations Host streamTypes))

/-- A type in either group is registered under its published identifier. -/
theorem IsLibrary.typeOf?_eq_some {library : Registry (StoredType ⊕ Host)} (h : IsLibrary library)
    {type : StoredType} {number : ℕ}
    (hnumber : (∃ index, codecTypes[index]? = some type ∧ number = 100 + index) ∨
      ∃ index, streamTypes[index]? = some type ∧ number = 164 + index) :
    library.typeOf? (.inl type) = some ⟨registration type, UInt32.ofNat number⟩ := by
  refine h.reached.isConsistent.typeOf?_eq_some_iff.mpr ⟨?_, key_registration type⟩
  rw [h.types_perm.mem_iff, List.mem_append]
  refine hnumber.imp ?_ ?_
  · rintro ⟨index, hindex, rfl⟩
    exact mem_numbered hindex 100
  · rintro ⟨index, hindex, rfl⟩
    exact mem_numbered hindex 164

/-- The registry of this library comes about. -/
theorem exists_registry : ∃ library : Registry (StoredType ⊕ Host),
    StoredType.registry = .ok library ∧ IsLibrary library := by
  have hcodecs : (registrations Host codecTypes).length = 20 := rfl
  have hstreams : (registrations Host streamTypes).length = 3 := rfl
  have hkeys : ((registrations Host codecTypes).map (·.key) ++
      (registrations Host streamTypes).map (·.key)).Nodup := by
    rw [map_key_registrations, map_key_registrations, ← List.map_append]
    exact List.Nodup.map (fun _ _ h ↦ Sum.inl.inj h) (by decide)
  have hcodecKeys : ((empty : Registry (StoredType ⊕ Host)).types.map (·.key) ++
      (registrations Host codecTypes).map (·.key)).Nodup := hkeys.of_append_left
  obtain ⟨first, hfirst, hreached, hnames, htypes⟩ :=
    run_addGroup_ofList .empty (List.not_mem_nil : codecGroup ∉ []) (rfl : nextBase _ = 100)
      (by rw [hcodecs]; decide) (by rw [hcodecs]; decide)
      (fun _ h ↦ absurd h List.not_mem_nil) hcodecKeys
  have hbase : first.nextBase = 164 := by
    have hlength := congrArg List.length hnames
    rw [List.length_map] at hlength
    rw [nextBase, hlength]
    rfl
  have hlast : ∀ type ∈ first.types, type.identifier.toNat < (164 : UInt32).toNat := by
    intro type htype
    have hlt := identifier_lt_of_mem_numbered (htypes.mem_iff.mp htype)
    rw [hcodecs] at hlt
    exact Nat.lt_trans hlt (by decide)
  have hname : streamGroup ∉ first.groups.map (·.name) := by
    rw [hnames]
    show streamGroup ∉ [codecGroup]
    decide
  have hmore : (first.types.map (·.key) ++
      (registrations Host streamTypes).map (·.key)).Nodup := by
    have hmap := htypes.map (·.key)
    rw [List.map_append, map_key_numbered] at hmap
    exact (hmap.append_right _).nodup_iff.mpr hkeys
  obtain ⟨second, hsecond, hend, _, hall⟩ :=
    run_addGroup_ofList hreached hname hbase (by rw [hstreams]; decide)
      (by rw [hstreams]; decide) hlast hmore
  refine ⟨second, ?_, hend, hall.trans (htypes.append_right _)⟩
  have hrun : (do
      addGroup codecGroup (.ofList (registrations Host codecTypes))
      addGroup streamGroup (.ofList (registrations Host streamTypes)) :
        Registering (StoredType ⊕ Host) Unit).run empty = .ok () second := by
    rw [EStateM.run_bind, hfirst]
    exact hsecond
  exact after_eq_ok_iff.mpr hrun

end StoredType

end HuffmanCoding
