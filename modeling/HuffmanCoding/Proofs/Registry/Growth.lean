import HuffmanCoding.Proofs.Registry.Manifest
import HuffmanCoding.Proofs.Registry.NextBlock

/-!
# Registries that grow

A type keeps its identifier when types are appended to any groups and groups are added behind the
others. To see this, the calls that build a registry are run next to the same calls with longer
blocks. After each step the second registry has the same groups at the same places, with the same
types in front and nothing but appended types behind them (`Registry.InLockstep`), and while a group
is open, it is the same in both registries. So each registration has the same outcome in both runs,
unless it is refused in the second one on account of an appended type (`InLockstep.enter_cases`).

A block that gives up when a type is refused was not refused any if it ended well. A block that goes
on sees that a type was appended elsewhere, and can do something else then. This is to no avail if
the first registry does not have the type: it was refused there, too, so the open group takes
nothing more in either registry (`Registry.isStuck_of_run_block`). So types that are new to the
registry can be appended whatever the blocks do (`Registry.orderly_of_new`). In all these cases
types keep their identifiers, and what was published is honoured (`Registry.identifiers_areStable`).
A type that the first registry has can move, though, when it is appended to one block and another
block goes on without it.
-/

set_option autoImplicit false
set_option relaxedAutoImplicit false

namespace HuffmanCoding

/-! ### Longer blocks -/

namespace Block

variable {κ : Type} [TypeKeys κ]

/-- The block that does something more where it would be done. -/
def andThen : Block κ → Block κ → Block κ
  | done, more => more
  | stop fault, _ => stop fault
  | register registration next, more =>
    register registration fun outcome ↦ (next outcome).andThen more

/-- The block does not end well, whatever its registrations yield. -/
def Fails : Block κ → Prop
  | done => False
  | stop _ => True
  | register _ next => ∀ outcome, (next outcome).Fails

/-- The block fails when one of certain types is refused. -/
def Insists (certain : κ → Prop) : Block κ → Prop
  | done => True
  | stop _ => True
  | register registration next =>
    (certain registration.key → ∀ fault, (next (.error fault)).Fails) ∧
      ∀ outcome, (next outcome).Insists certain

/-- The block fails when any type is refused. -/
def GivesUp (block : Block κ) : Prop :=
  block.Insists fun _ ↦ True

/-- Registering types one after the other, a block gives up when one is refused. -/
theorem givesUp_ofList (registrations : List (Registration κ)) :
    (ofList registrations).GivesUp := by
  induction registrations with
  | nil => trivial
  | cons registration rest ih =>
    refine ⟨fun _ _ ↦ trivial, fun outcome ↦ ?_⟩
    cases outcome with
    | ok identifier => exact ih
    | error fault => trivial

/-- Registering types one after the other, a block asks for no other type. -/
theorem exists_of_asks_ofList {registrations : List (Registration κ)} {key : κ}
    (h : (ofList registrations).Asks key) :
    ∃ registration ∈ registrations, registration.key = key := by
  induction registrations with
  | nil => cases h
  | cons registration rest ih =>
    obtain hkey | ⟨outcome, hrest⟩ := h
    · exact ⟨registration, List.mem_cons_self .., hkey⟩
    · cases outcome with
      | ok identifier =>
        obtain ⟨later, hlater, hkey⟩ := ih hrest
        exact ⟨later, List.mem_cons_of_mem _ hlater, hkey⟩
      | error fault => cases hrest

/-- A block that fails when any of some types is refused does so when one of fewer types is. -/
theorem Insists.mono {certain other : κ → Prop} {block : Block κ} (h : block.Insists certain)
    (hother : ∀ key, other key → certain key) : block.Insists other := by
  induction block with
  | done => trivial
  | stop fault => trivial
  | register registration next ih =>
    exact ⟨fun hkey ↦ h.1 (hother _ hkey), fun outcome ↦ ih outcome (h.2 outcome)⟩

/-- No block fails on account of no type. -/
theorem insists_of_forall_not {certain : κ → Prop} (h : ∀ key, ¬ certain key)
    (block : Block κ) : block.Insists certain := by
  induction block with
  | done => trivial
  | stop fault => trivial
  | register registration next ih =>
    exact ⟨fun hkey ↦ absurd hkey (h registration.key), fun outcome ↦ ih outcome⟩

variable [DecidableEq κ]

/-- The longer block does one thing after the other. -/
theorem run_andThen (block more : Block κ) (place : ℕ) :
    (block.andThen more).run place = block.run place >>= fun _ ↦ more.run place := by
  induction block with
  | done => rfl
  | stop fault => rfl
  | register registration next ih =>
    show (observing (Registry.enter place registration) >>=
      fun outcome ↦ ((next outcome).andThen more).run place) =
      (observing (Registry.enter place registration) >>=
        fun outcome ↦ (next outcome).run place) >>= fun _ ↦ more.run place
    rw [bind_assoc]
    simp only [ih]

/-- A block that fails does not leave a registry without a fault. -/
theorem Fails.run_ne_ok {block : Block κ} (h : block.Fails) (place : ℕ)
    (registry left : Registry κ) : (block.run place).run registry ≠ .ok () left := by
  induction block generalizing registry with
  | done => exact h.elim
  | stop fault => exact fun hrun ↦ by cases hrun
  | register registration next ih =>
    cases hrun : (Registry.enter place registration).run registry with
    | ok identifier entered =>
      rw [Registry.run_register_of_ok hrun]
      exact ih _ (h _) _
    | error fault entered =>
      obtain rfl := Registry.eq_of_run_enter_eq_error hrun
      rw [Registry.run_register_of_error hrun]
      exact ih _ (h _) _

end Block

namespace Registry

variable {κ : Type} [TypeKeys κ]

/-! ### Registries with more types -/

/-- The groups of the first registry stand at their places in the second one, with nothing but
appended types behind their own. -/
def Follows (appended : κ → Prop) (first second : Registry κ) : Prop :=
  ∀ (place : ℕ) (group : TypeGroup κ), first.groups[place]? = some group →
    ∃ more : List (RegisteredType κ),
      second.groups[place]? = some { group with types := group.types ++ more } ∧
        ∀ type ∈ more, appended type.key

variable {appended : κ → Prop} {first second third : Registry κ}

theorem follows_refl (appended : κ → Prop) (registry : Registry κ) :
    Follows appended registry registry :=
  fun _ group hgroup ↦ ⟨[], by rw [List.append_nil]; exact hgroup, by simp⟩

theorem Follows.trans (h : Follows appended first second) (hnext : Follows appended second third) :
    Follows appended first third := by
  intro place group hgroup
  obtain ⟨more, hmore, happended⟩ := h place group hgroup
  obtain ⟨last, hlast, happended'⟩ := hnext place _ hmore
  refine ⟨more ++ last, by rw [hlast, List.append_assoc], ?_⟩
  intro type htype
  exact (List.mem_append.mp htype).elim (happended type) (happended' type)

theorem Follows.mono {other : κ → Prop} (h : Follows appended first second)
    (hother : ∀ key, appended key → other key) : Follows other first second := by
  intro place group hgroup
  obtain ⟨more, hmore, happended⟩ := h place group hgroup
  exact ⟨more, hmore, fun type htype ↦ hother _ (happended type htype)⟩

/-- The types of the first registry stand in their slots in the second one. -/
theorem Follows.typeAt? (h : Follows appended first second) {slot : Slot}
    {type : RegisteredType κ} (htype : first.typeAt? slot = some type) :
    second.typeAt? slot = some type := by
  obtain ⟨group, hgroup, hposition⟩ := Option.bind_eq_some_iff.mp htype
  obtain ⟨more, hmore, _⟩ := h slot.group group hgroup
  refine Option.bind_eq_some_iff.mpr ⟨_, hmore, ?_⟩
  rw [List.getElem?_append_left (List.getElem?_eq_some_iff.mp hposition).1]
  exact hposition

/-- The types of the first registry are in the second one, too. -/
theorem Follows.mem_keys (h : Follows appended first second) {key : κ}
    (hkey : key ∈ first.types.map (·.key)) : key ∈ second.types.map (·.key) := by
  obtain ⟨type, htype, hsame⟩ := List.mem_map.mp hkey
  obtain ⟨slot, hslot⟩ := mem_types_iff.mp htype
  exact List.mem_map.mpr ⟨type, mem_types_iff.mpr ⟨slot, h.typeAt? hslot⟩, hsame⟩

/-- A type in a slot of a group that both registries have is one of the first registry or was
appended. -/
theorem Follows.typeAt?_cases (h : Follows appended first second) {slot : Slot}
    (hslot : slot.group < first.groups.length) {type : RegisteredType κ}
    (htype : second.typeAt? slot = some type) :
    first.typeAt? slot = some type ∨ appended type.key := by
  obtain ⟨group, hgroup, hposition⟩ := Option.bind_eq_some_iff.mp htype
  obtain ⟨more, hmore, happended⟩ := h slot.group _ (List.getElem?_eq_getElem hslot)
  rw [hgroup, Option.some.injEq] at hmore
  subst hmore
  rw [List.getElem?_append] at hposition
  split_ifs at hposition with hold
  · exact Or.inl (Option.bind_eq_some_iff.mpr ⟨_, List.getElem?_eq_getElem hslot, hposition⟩)
  · exact Or.inr (happended type (List.mem_of_getElem? hposition))

/-- An index of the second registry leads where the same index of the first one does, unless it
leads to an appended type. -/
theorem Follows.find?_cases {ι : Type} [DecidableEq ι] {label : RegisteredType κ → ι}
    {index index' : Index ι} (h : Follows appended first second)
    (hlength : second.groups.length = first.groups.length)
    (hindex : ∀ key slot, index.find? key = some slot ↔
      ∃ type, first.typeAt? slot = some type ∧ label type = key)
    (hindex' : ∀ key slot, index'.find? key = some slot ↔
      ∃ type, second.typeAt? slot = some type ∧ label type = key) (key : ι) :
    (∃ slot type, index'.find? key = some slot ∧ label type = key ∧ appended type.key) ∨
      index'.find? key = index.find? key := by
  cases hfound : index.find? key with
  | some slot =>
    obtain ⟨type, htype, hsame⟩ := (hindex key slot).mp hfound
    exact Or.inr ((hindex' key slot).mpr ⟨type, h.typeAt? htype, hsame⟩)
  | none =>
    cases hfound' : index'.find? key with
    | none => exact Or.inr rfl
    | some slot =>
      obtain ⟨type, htype, hsame⟩ := (hindex' key slot).mp hfound'
      obtain ⟨group, hgroup, _⟩ := Option.bind_eq_some_iff.mp htype
      have hslot : slot.group < first.groups.length :=
        hlength ▸ (List.getElem?_eq_some_iff.mp hgroup).1
      rcases h.typeAt?_cases hslot htype with hold | happended
      · rw [(hindex key slot).mpr ⟨type, hold, hsame⟩] at hfound
        cases hfound
      · exact Or.inl ⟨slot, type, rfl, hsame, happended⟩

/-- Opening a group leaves the others where they are. -/
theorem follows_append (appended : κ → Prop) (registry : Registry κ) (group : TypeGroup κ) :
    Follows appended registry { registry with groups := registry.groups ++ [group] } := by
  intro place other hother
  refine ⟨[], ?_, by simp⟩
  rw [List.append_nil]
  exact (List.getElem?_append_left (List.getElem?_eq_some_iff.mp hother).1).trans hother

variable [DecidableEq κ]

/-- Registering a type leaves the others where they are. -/
theorem follows_insert (registry : Registry κ) (slot : Slot) {type : RegisteredType κ}
    (htype : appended type.key) : Follows appended registry (registry.insert slot type) := by
  intro place group hgroup
  rw [getElem?_insert, hgroup, Option.map_some]
  split_ifs with hplace
  · exact ⟨[type], rfl, by simpa using htype⟩
  · exact ⟨[], by rw [List.append_nil], by simp⟩

/-- Whatever is done with a registry leaves its types where they are. -/
theorem isKept_follows (start : Registry κ) : IsKept (Follows (fun _ ↦ True) start) where
  opened := fun registry h _ _ _ ↦ h.trans (follows_append _ registry _)
  entered := by
    intro registry h place registration
    rcases enter_cases registry place registration with ⟨fault, hrun⟩ | ⟨group, _, _, _, hrun⟩
    · rw [hrun]
      exact h
    · rw [hrun]
      exact h.trans (follows_insert _ _ trivial)

/-- A block leaves the types of a registry where they are. -/
theorem follows_of_run_block {place : ℕ} {block : Block κ} {registry left : Registry κ}
    (hrun : (block.run place).run registry = .ok () left) :
    Follows (fun _ ↦ True) registry left := by
  have hleft := leftBy_run_block (Follows (fun _ ↦ True) registry) block place
    (fun registration _ middle hmiddle ↦
      (isKept_follows registry).entered middle hmiddle place registration)
    (follows_refl _ registry)
  rwa [hrun] at hleft

/-! ### Groups that take nothing more -/

/-- Every registration at the end of the group is refused. -/
def IsStuck (registry : Registry κ) (place : ℕ) : Prop :=
  ∀ registration, ∃ fault, (enter place registration).run registry = .error fault registry

section Stuck

variable {registry left : Registry κ} {place : ℕ}

/-- A block changes nothing where every registration is refused. -/
theorem IsStuck.eq_of_run_block (h : registry.IsStuck place) {block : Block κ}
    (hrun : (block.run place).run registry = .ok () left) : left = registry := by
  induction block with
  | done =>
    cases hrun
    rfl
  | stop fault => cases hrun
  | register registration next ih =>
    obtain ⟨fault, henter⟩ := h registration
    rw [run_register_of_error henter] at hrun
    exact ih _ hrun

/-- If a type is refused that is not registered, it is on account of its place, where every other
type would stand as well. -/
theorem isStuck_of_refused (hconsistent : registry.IsConsistent) {group : TypeGroup κ}
    (hgroup : registry.groups[place]? = some group) {registration : Registration κ}
    (hnew : registration.key ∉ registry.types.map (·.key)) {fault : RegistrationFault}
    (henter : (enter place registration).run registry = .error fault registry) :
    registry.IsStuck place := by
  intro other
  rw [run_enter hgroup] at henter ⊢
  dsimp only at henter ⊢
  rw [hconsistent.find?_byKey_eq_none hnew, if_neg (by decide)] at henter
  by_cases hold : (registry.byKey.find? other.key).isSome
  · rw [if_pos hold]
    exact ⟨_, rfl⟩
  rw [if_neg hold]
  by_cases hfull : capacity ≤ group.types.length ∨ UInt32.size ≤ group.next
  · rw [if_pos hfull]
    exact ⟨_, rfl⟩
  rw [if_neg hfull] at henter ⊢
  cases hnumber : registry.byIdentifier.find? (UInt32.ofNat group.next) with
  | some owner => exact ⟨_, rfl⟩
  | none =>
    rw [hnumber] at henter
    cases henter

/-- If a block ends without the type that it asked for first, its group takes nothing more. -/
theorem isStuck_of_run_block (hconsistent : registry.IsConsistent) {group : TypeGroup κ}
    (hgroup : registry.groups[place]? = some group) {registration : Registration κ}
    {next : Except RegistrationFault UInt32 → Block κ}
    (hrun : ((Block.register registration next).run place).run registry = .ok () left)
    (hmissing : registration.key ∉ left.types.map (·.key)) : registry.IsStuck place := by
  rcases Registry.enter_cases registry place registration with
    ⟨fault, henter⟩ | ⟨owner, identifier, howner, _, henter⟩
  · exact isStuck_of_refused hconsistent hgroup
      (mt (follows_of_run_block hrun).mem_keys hmissing) henter
  · rw [run_register_of_ok henter] at hrun
    have hentered := (types_insert_perm howner ⟨registration, identifier⟩).mem_iff.mpr
      List.mem_cons_self
    exact absurd ((follows_of_run_block hrun).mem_keys
      (List.mem_map_of_mem hentered)) hmissing

end Stuck

/-! ### Published identifiers -/

section Published

variable (h : Follows appended first second) (hfirst : first.IsConsistent)
  (hsecond : second.IsConsistent)

include h hsecond

include hfirst in
/-- The types of the first registry are registered in the second one under their identifiers. -/
theorem Follows.typeOf?_eq {key : κ} {type : RegisteredType κ}
    (htype : first.typeOf? key = some type) : second.typeOf? key = some type := by
  obtain ⟨hmem, hkey⟩ := hfirst.typeOf?_eq_some_iff.mp htype
  obtain ⟨slot, hslot⟩ := mem_types_iff.mp hmem
  exact hsecond.typeOf?_eq_some_iff.mpr ⟨mem_types_iff.mpr ⟨slot, h.typeAt? hslot⟩, hkey⟩

/-- What the first registry publishes begins what the second one publishes, group by group. -/
theorem Follows.manifestOf_prefix (name : String) :
    first.manifestOf name <+: second.manifestOf name := by
  unfold manifestOf
  cases hgroup : first.group? name with
  | none => exact List.nil_prefix
  | some group =>
    obtain ⟨place, hplace⟩ := List.mem_iff_getElem?.mp (List.mem_of_find?_eq_some hgroup)
    obtain ⟨more, hmore, _⟩ := h place group hplace
    have hname : group.name = name := by simpa using List.find?_some hgroup
    have hfound : second.group? name = some { group with types := group.types ++ more } :=
      hsecond.group?_eq_some_iff.mpr ⟨List.mem_of_getElem? hmore, hname⟩
    rw [hfound, Option.elim_some, Option.elim_some, TypeGroup.manifest, TypeGroup.manifest,
      List.map_append]
    exact List.prefix_append _ _

include hfirst in
/-- The second registry honours what the first one publishes. -/
theorem Follows.verify_manifest : second.verify first.manifest = .ok () := by
  rw [verify_eq_ok_iff]
  intro name
  rw [hfirst.rowsOf_manifest]
  exact h.manifestOf_prefix hsecond name

end Published

/-! ### Two runs side by side -/

/-- Two registries at the same place of the same calls, where the blocks of the second one are
longer. -/
structure InLockstep (appended : κ → Prop) (first second : Registry κ) : Prop where
  reached_first : first.Reached
  reached_second : second.Reached
  follows : Follows appended first second
  length_eq : second.groups.length = first.groups.length
  isCountedOff : second.IsCountedOff

theorem inLockstep_empty (appended : κ → Prop) : InLockstep appended empty empty where
  reached_first := .empty
  reached_second := .empty
  follows := follows_refl appended empty
  length_eq := rfl
  isCountedOff := isCountedOff_empty

variable {place : ℕ} {group : TypeGroup κ}

/-- A type that is registered in both registries leaves them alike. -/
theorem Follows.insert (h : Follows appended first second)
    (hfirst : first.groups[place]? = some group) (hsecond : second.groups[place]? = some group)
    (position : ℕ) (type : RegisteredType κ) :
    Follows appended (first.insert ⟨place, position⟩ type)
      (second.insert ⟨place, position⟩ type) := by
  intro other grown hgrown
  rw [getElem?_insert] at hgrown ⊢
  by_cases hplace : place = other
  · subst hplace
    rw [hfirst, Option.map_some, if_pos rfl, Option.some.injEq] at hgrown
    rw [hsecond, Option.map_some, if_pos rfl]
    exact ⟨[], by rw [List.append_nil, hgrown], by simp⟩
  · obtain ⟨old, hold, hsame⟩ := Option.map_eq_some_iff.mp hgrown
    rw [if_neg hplace] at hsame
    subst hsame
    obtain ⟨more, hmore, happended⟩ := h other old hold
    exact ⟨more, by rw [hmore, Option.map_some, if_neg hplace], happended⟩

omit [DecidableEq κ] in
/-- A group that is opened in both registries leaves them alike. -/
theorem Follows.opened (h : Follows appended first second)
    (hlength : second.groups.length = first.groups.length) (group : TypeGroup κ) :
    Follows appended { first with groups := first.groups ++ [group] }
      { second with groups := second.groups ++ [group] } := by
  intro place other hother
  rcases Nat.lt_or_ge place first.groups.length with hold | hnew
  · obtain ⟨more, hmore, happended⟩ :=
      h place other ((List.getElem?_append_left hold).symm.trans hother)
    exact ⟨more, (List.getElem?_append_left (hlength ▸ hold)).trans hmore, happended⟩
  · have hplace : place = first.groups.length := by
      have hlt := (List.getElem?_eq_some_iff.mp hother).1
      rw [List.length_append, List.length_singleton] at hlt
      omega
    subst hplace
    rw [List.getElem?_concat_length, Option.some.injEq] at hother
    subst hother
    refine ⟨[], ?_, by simp⟩
    rw [← hlength, List.getElem?_concat_length, List.append_nil]

namespace InLockstep

variable (h : InLockstep appended first second)

include h

/-- The next group has the same block of identifiers in both registries. -/
theorem nextBase_eq : second.nextBase = first.nextBase := by
  rw [nextBase, nextBase, h.length_eq]

/-- While a group is open that is the same in both registries, a registration has the same outcome
in both, unless it is one of the appended types that is refused in the second one. -/
theorem enter_cases (hfirst : first.groups[place]? = some group)
    (hsecond : second.groups[place]? = some group)
    (hclash : (∀ key, appended key) ∨ second.groups.length ≤ blockCount)
    (registration : Registration κ) :
    (appended registration.key ∧
      ∃ fault, (enter place registration).run second = .error fault second) ∨
    (∃ fault, (enter place registration).run first = .error fault first ∧
      (enter place registration).run second = .error fault second) ∨
    ∃ identifier, (enter place registration).run first = .ok identifier
        (first.insert ⟨place, group.types.length⟩ ⟨registration, identifier⟩) ∧
      (enter place registration).run second = .ok identifier
        (second.insert ⟨place, group.types.length⟩ ⟨registration, identifier⟩) := by
  have hrun := run_enter hfirst registration
  have hrun' := run_enter hsecond registration
  dsimp only at hrun hrun'
  have hconsistent := h.reached_first.isConsistent
  have hconsistent' := h.reached_second.isConsistent
  rcases h.follows.find?_cases h.length_eq hconsistent.byKey_iff hconsistent'.byKey_iff
    registration.key with ⟨slot, type, hkey, hsame, happended⟩ | hkey
  · rw [hkey, if_pos Option.isSome_some] at hrun'
    exact Or.inl ⟨hsame ▸ happended, _, hrun'⟩
  rw [hkey] at hrun'
  split_ifs at hrun hrun' with hold hfull
  · exact Or.inr (Or.inl ⟨_, hrun, hrun'⟩)
  · exact Or.inr (Or.inl ⟨_, hrun, hrun'⟩)
  rcases h.follows.find?_cases h.length_eq hconsistent.byIdentifier_iff
    hconsistent'.byIdentifier_iff (UInt32.ofNat group.next) with ⟨owner, _, hnumber, _⟩ | hnumber
  · rcases hclash with happended | hcount
    · rw [hnumber] at hrun'
      exact Or.inl ⟨happended _, _, hrun'⟩
    · rw [not_or, Nat.not_le, Nat.not_le] at hfull
      rw [(h.isCountedOff.owns hconsistent' hcount place).find?_eq_none hconsistent' hsecond
        hfull.1 hfull.2] at hnumber
      cases hnumber
  · rw [hnumber] at hrun'
    cases hfound : first.byIdentifier.find? (UInt32.ofNat group.next) with
    | some owner =>
      obtain ⟨type, htype, _⟩ := (hconsistent.byIdentifier_iff _ owner).mp hfound
      rw [hfound] at hrun hrun'
      dsimp only at hrun hrun'
      rw [htype] at hrun
      rw [h.follows.typeAt? htype] at hrun'
      exact Or.inr (Or.inl ⟨_, hrun, hrun'⟩)
    | none =>
      rw [hfound] at hrun hrun'
      exact Or.inr (Or.inr ⟨_, hrun, hrun'⟩)

/-- A type that both registries accept leaves them in lockstep. -/
theorem insert {registration : Registration κ} {identifier : UInt32}
    (hfirst : first.groups[place]? = some group) (hsecond : second.groups[place]? = some group)
    (hrun : (enter place registration).run first = .ok identifier
      (first.insert ⟨place, group.types.length⟩ ⟨registration, identifier⟩))
    (hrun' : (enter place registration).run second = .ok identifier
      (second.insert ⟨place, group.types.length⟩ ⟨registration, identifier⟩)) :
    InLockstep appended (first.insert ⟨place, group.types.length⟩ ⟨registration, identifier⟩)
      (second.insert ⟨place, group.types.length⟩ ⟨registration, identifier⟩) where
  reached_first := by
    have hreached := h.reached_first.entered place registration
    rwa [hrun] at hreached
  reached_second := by
    have hreached := h.reached_second.entered place registration
    rwa [hrun'] at hreached
  follows := h.follows.insert hfirst hsecond _ _
  length_eq := by
    rw [length_insert, length_insert]
    exact h.length_eq
  isCountedOff := by
    have hcounted := h.isCountedOff.entered place registration
    rwa [hrun'] at hcounted

/-- A group that takes nothing more in the first registry takes nothing more in the second one. -/
theorem isStuck (hfirst : first.groups[place]? = some group)
    (hsecond : second.groups[place]? = some group)
    (hclash : (∀ key, appended key) ∨ second.groups.length ≤ blockCount)
    (hstuck : first.IsStuck place) : second.IsStuck place := by
  intro registration
  rcases h.enter_cases hfirst hsecond hclash registration with
    ⟨_, hrefused⟩ | ⟨fault, _, henter'⟩ | ⟨identifier, henter, _⟩
  · exact hrefused
  · exact ⟨fault, henter'⟩
  · obtain ⟨fault, hrefused⟩ := hstuck registration
    rw [henter] at hrefused
    cases hrefused

/-- A block does the same in both registries if it fails as soon as it is refused one of the
appended types that the first registry has in the end. -/
theorem run_block {certain : κ → Prop} {block : Block κ} {left left' : Registry κ}
    (hfirst : first.groups[place]? = some group) (hsecond : second.groups[place]? = some group)
    (hclash : (∀ key, appended key) ∨ second.groups.length ≤ blockCount)
    (hinsists : block.Insists certain)
    (hcertain : ∀ key ∈ left.types.map (·.key), appended key → certain key)
    (hrun : (block.run place).run first = .ok () left)
    (hrun' : (block.run place).run second = .ok () left') : InLockstep appended left left' := by
  induction block generalizing first second group with
  | done =>
    cases hrun
    cases hrun'
    exact h
  | stop fault => cases hrun
  | register registration next ih =>
    rcases h.enter_cases hfirst hsecond hclash registration with
      ⟨happended, fault, henter⟩ | ⟨fault, henter, henter'⟩ | ⟨identifier, henter, henter'⟩
    · by_cases hkept : registration.key ∈ left.types.map (·.key)
      · rw [run_register_of_error henter] at hrun'
        exact absurd hrun' ((hinsists.1 (hcertain _ hkept happended) fault).run_ne_ok _ _ _)
      · have hstuck := isStuck_of_run_block h.reached_first.isConsistent hfirst hrun hkept
        obtain rfl := hstuck.eq_of_run_block hrun
        obtain rfl := (h.isStuck hfirst hsecond hclash hstuck).eq_of_run_block hrun'
        exact h
    · rw [run_register_of_error henter] at hrun
      rw [run_register_of_error henter'] at hrun'
      exact ih _ h hfirst hsecond hclash (hinsists.2 _) hrun hrun'
    · rw [run_register_of_ok henter] at hrun
      rw [run_register_of_ok henter'] at hrun'
      exact ih _ (h.insert hfirst hsecond henter henter') (getElem?_insert_self hfirst _ _)
        (getElem?_insert_self hsecond _ _) (length_insert second _ _ ▸ hclash) (hinsists.2 _)
        hrun hrun'

/-- What the second registry alone is asked for goes behind. -/
theorem run_more {more : Block κ} (hasks : ∀ key, more.Asks key → appended key) (place : ℕ) :
    InLockstep appended first (leftBy ((more.run place).run second)) := by
  refine leftBy_run_block (InLockstep appended first) more place
    (fun registration hasked left hleft ↦ ?_) h
  have hreached := hleft.reached_second.entered place registration
  have hcounted := hleft.isCountedOff.entered place registration
  rcases Registry.enter_cases left place registration with ⟨fault, hrun⟩ | ⟨_, _, _, _, hrun⟩
  · rw [hrun]
    exact hleft
  · rw [hrun] at hreached hcounted ⊢
    exact {
      reached_first := hleft.reached_first
      reached_second := hreached
      follows := hleft.follows.trans (follows_insert _ _ (hasks _ hasked))
      length_eq := (length_insert ..).trans hleft.length_eq
      isCountedOff := hcounted }

/-- A group that is opened in both registries leaves them in lockstep. -/
theorem opened {name : String} (hfirst : name ∉ first.groups.map (·.name))
    (hsecond : name ∉ second.groups.map (·.name)) :
    InLockstep appended { first with groups := first.groups ++ [⟨name, first.nextBase, []⟩] }
      { second with groups := second.groups ++ [⟨name, second.nextBase, []⟩] } where
  reached_first := h.reached_first.opened hfirst _
  reached_second := h.reached_second.opened hsecond _
  follows := by
    rw [h.nextBase_eq]
    exact h.follows.opened h.length_eq _
  length_eq := by
    rw [List.length_append, List.length_append, h.length_eq]
    rfl
  isCountedOff := h.isCountedOff.append name

end InLockstep

/-! ### Longer calls -/

omit [DecidableEq κ] in
variable (κ) in
/-- A call that adds a group, and what a longer call does in the end. -/
structure GrownCall where
  name : String
  block : Block κ
  more : Block κ

omit [DecidableEq κ] in
def GrownCall.shorter (call : GrownCall κ) : GroupCall κ :=
  ⟨call.name, none, call.block⟩

omit [DecidableEq κ] in
def GrownCall.longer (call : GrownCall κ) : GroupCall κ :=
  ⟨call.name, none, call.block.andThen call.more⟩

omit [DecidableEq κ] in
/-- A type can be refused because types were appended if it was appended itself, or if there are so
many groups that their blocks of identifiers overlap. -/
def CanClash (calls : List (GrownCall κ)) (key : κ) : Prop :=
  (∃ call ∈ calls, call.more.Asks key) ∨ blockCount < calls.length

omit [DecidableEq κ] in
/-- No block goes on after it was refused a type that the registry of the shorter calls has, if this
can be so because types were appended. -/
def Orderly (calls : List (GrownCall κ)) (first : Registry κ) : Prop :=
  ∀ call ∈ calls, call.block.Insists fun key ↦ key ∈ first.types.map (·.key) ∧ CanClash calls key

omit [DecidableEq κ] in
/-- Any types can be appended to any number of blocks that give up when a type is refused. -/
theorem orderly_of_givesUp {calls : List (GrownCall κ)}
    (h : ∀ call ∈ calls, call.block.GivesUp) (first : Registry κ) : Orderly calls first :=
  fun call hcall ↦ (h call hcall).mono fun _ _ ↦ trivial

omit [DecidableEq κ] in
/-- Types that the registry does not have can be appended to a moderate number of blocks, whatever
the blocks do when a type is refused. -/
theorem orderly_of_new {calls : List (GrownCall κ)} (hcount : calls.length ≤ blockCount)
    {first : Registry κ} (hnew : ∀ call ∈ calls, ∀ key, call.more.Asks key →
      key ∉ first.types.map (·.key)) : Orderly calls first := by
  refine fun call _ ↦ Block.insists_of_forall_not ?_ call.block
  rintro key ⟨hold, ⟨other, hother, hasks⟩ | hmany⟩
  · exact hnew other hother key hasks hold
  · exact absurd hcount (Nat.not_le.mpr hmany)

/-- Calls and longer calls that all succeed leave registries in lockstep. -/
theorem InLockstep.calls {certain : κ → Prop} {calls : List (GrownCall κ)}
    {left left' : Registry κ} (h : InLockstep appended first second)
    (hinsists : ∀ call ∈ calls, call.block.Insists certain)
    (hcertain : ∀ key ∈ left.types.map (·.key), appended key → certain key)
    (hasks : ∀ call ∈ calls, ∀ key, call.more.Asks key → appended key)
    (hclash : (∀ key, appended key) ∨ first.groups.length + calls.length ≤ blockCount)
    (hrun : ((calls.map GrownCall.shorter).forM GroupCall.perform).run first = .ok () left)
    (hrun' : ((calls.map GrownCall.longer).forM GroupCall.perform).run second = .ok () left') :
    InLockstep appended left left' := by
  induction calls generalizing first second with
  | nil =>
    cases hrun
    cases hrun'
    exact h
  | cons call calls ih =>
    rw [List.forall_mem_cons] at hinsists hasks
    rw [List.length_cons] at hclash
    obtain ⟨next, hnext, hrest⟩ := run_bind_eq_ok_iff.mp hrun
    obtain ⟨next', hnext', hrest'⟩ := run_bind_eq_ok_iff.mp hrun'
    obtain ⟨hname, hblock⟩ := run_addGroupAt_eq_ok_iff.mp hnext
    obtain ⟨hname', hlonger⟩ := run_addGroupAt_eq_ok_iff.mp hnext'
    rw [GrownCall.longer, Block.run_andThen] at hlonger
    obtain ⟨middle, hblock', hmore⟩ := run_bind_eq_ok_iff.mp hlonger
    have hgroup : (second.groups ++ [(⟨call.name, second.nextBase, []⟩ : TypeGroup κ)])[
        first.groups.length]? = some ⟨call.name, first.nextBase, []⟩ := by
      rw [← h.length_eq, ← h.nextBase_eq]
      exact List.getElem?_concat_length
    have hfew : (∀ key, appended key) ∨ (second.groups ++
        [(⟨call.name, second.nextBase, []⟩ : TypeGroup κ)]).length ≤ blockCount := by
      rw [List.length_append, List.length_singleton, h.length_eq]
      exact hclash.imp_right fun hcount ↦ by omega
    have hfollows := (isKept_follows next).calls (follows_refl _ next)
      (calls.map GrownCall.shorter)
    rw [hrest] at hfollows
    rw [h.length_eq] at hblock' hmore
    have hmiddle := (h.opened hname hname').run_block List.getElem?_concat_length hgroup hfew
      hinsists.1 (fun key hkey ↦ hcertain key (hfollows.mem_keys hkey)) hblock hblock'
    have hlockstep := hmiddle.run_more hasks.1 first.groups.length
    rw [hmore] at hlockstep
    refine ih hlockstep hinsists.2 hasks.2 (hclash.imp_right fun hcount ↦ ?_) hrest hrest'
    rw [length_of_run_addGroupAt hnext]
    omega

/-- If orderly calls succeed, and they do when they are longer, the second registry has nothing but
more types behind those of the first one. -/
theorem follows_of_longer_calls {calls : List (GrownCall κ)} {left left' : Registry κ}
    (horderly : Orderly calls left)
    (hrun : ((calls.map GrownCall.shorter).forM GroupCall.perform).run empty = .ok () left)
    (hrun' : ((calls.map GrownCall.longer).forM GroupCall.perform).run empty = .ok () left') :
    Follows (CanClash calls) left left' := by
  refine ((inLockstep_empty _).calls horderly (fun key hkey hclash ↦ ⟨hkey, hclash⟩)
    (fun call hcall key hasks ↦ Or.inl ⟨call, hcall, hasks⟩) ?_ hrun hrun').follows
  rw [show (empty : Registry κ).groups.length = 0 from rfl, Nat.zero_add]
  exact (Nat.lt_or_ge blockCount calls.length).imp_left fun hmany _ ↦ Or.inr hmany

/-- Types keep their identifiers when more is done at the end of the blocks and other calls follow:
if orderly calls succeed, and they do when they are longer and others follow, then each type of the
first registry is the same type of the second one, under the same identifier, and the second
registry honours what the first one publishes. Calls are orderly if their blocks give up when a type
is refused, or if the appended types are new and the blocks are not too many. Every registry honours
what it publishes itself. -/
theorem identifiers_areStable :
    (∀ (calls : List (GrownCall κ)) (added : List (GroupCall κ)) (first second : Registry κ),
      Orderly calls first →
        empty.after ((calls.map GrownCall.shorter).forM GroupCall.perform) = .ok first →
          empty.after ((calls.map GrownCall.longer ++ added).forM GroupCall.perform) =
            .ok second →
              (∀ key type, first.typeOf? key = some type → second.typeOf? key = some type) ∧
                second.verify first.manifest = .ok ()) ∧
    (∀ (calls : List (GrownCall κ)) (first : Registry κ),
      (∀ call ∈ calls, call.block.GivesUp) ∨
        (calls.length ≤ blockCount ∧ ∀ call ∈ calls, ∀ key, call.more.Asks key →
          key ∉ first.types.map (·.key)) → Orderly calls first) ∧
    ∀ (calls : List (GroupCall κ)) (registry : Registry κ),
      empty.after (calls.forM GroupCall.perform) = .ok registry →
        registry.verify registry.manifest = .ok () := by
  refine ⟨?_, ?_, ?_⟩
  · intro calls added first second horderly hfirst hsecond
    have hconsistent := (reached_of_calls hfirst).isConsistent
    have hconsistent' := (reached_of_calls hsecond).isConsistent
    have happend : (calls.map GrownCall.longer ++ added).forM GroupCall.perform =
        (calls.map GrownCall.longer).forM GroupCall.perform >>= fun _ ↦
          added.forM GroupCall.perform := List.forM_append
    rw [after_eq_ok_iff] at hfirst hsecond
    rw [happend] at hsecond
    obtain ⟨middle, hlonger, hadded⟩ := run_bind_eq_ok_iff.mp hsecond
    have hfollows := (isKept_follows middle).calls (follows_refl _ middle) added
    rw [hadded] at hfollows
    have hall := ((follows_of_longer_calls horderly hfirst hlonger).mono fun _ _ ↦ trivial).trans
      hfollows
    exact ⟨fun key type htype ↦ hall.typeOf?_eq hconsistent hconsistent' htype,
      hall.verify_manifest hconsistent hconsistent'⟩
  · rintro calls first (hgivesUp | ⟨hcount, hnew⟩)
    · exact orderly_of_givesUp hgivesUp first
    · exact orderly_of_new hcount hnew
  · intro calls registry hbuilt
    exact (reached_of_calls hbuilt).isConsistent.verify_manifest

/-- Two calls, the first of which registers one more type than before. -/
def twoGrownCalls : List (GrownCall StoredType) :=
  [⟨"first", .ofList [.plain .codeword], .ofList [.plain .config]⟩,
    ⟨"second", .ofList [.plain .characterCodec], .done⟩]

def thirdCall : GroupCall StoredType :=
  ⟨"third", none, .ofList [.plain .textCodec]⟩

/-- Two calls, the second of which goes on whether its type is refused or not. The first one
registers another type when it has grown. -/
def carelessCalls (appended : StoredType) : List (GrownCall StoredType) :=
  [⟨"first", .ofList [.plain .codeword], .ofList [.plain appended]⟩,
    ⟨"second", .register (.plain .config) fun _ ↦ .done, .done⟩]

/-- A type in the second group keeps its identifier when the first group has grown and a third one
was added. With a type that is new, this does not hang on what the second block does. -/
theorem identifiers_areStable_of_twoGrownCalls :
    ∃ first second careless grown : Registry StoredType,
      Orderly twoGrownCalls first ∧
      empty.after ((twoGrownCalls.map GrownCall.shorter).forM GroupCall.perform) = .ok first ∧
      empty.after ((twoGrownCalls.map GrownCall.longer ++ [thirdCall]).forM
        GroupCall.perform) = .ok second ∧
      first.size = 2 ∧ second.size = 4 ∧
      second.typeOf? .characterCodec = some ⟨.plain .characterCodec, 164⟩ ∧
      second.verify first.manifest = .ok () ∧ first.verify first.manifest = .ok () ∧
      Orderly (carelessCalls .characterCodec) careless ∧
      empty.after (((carelessCalls .characterCodec).map GrownCall.shorter).forM
        GroupCall.perform) = .ok careless ∧
      empty.after (((carelessCalls .characterCodec).map GrownCall.longer ++ [thirdCall]).forM
        GroupCall.perform) = .ok grown ∧
      grown.typeOf? .config = some ⟨.plain .config, 164⟩ ∧
      grown.verify careless.manifest = .ok () := by
  obtain ⟨hgrown, horderly, hown⟩ := identifiers_areStable (κ := StoredType)
  have hgivesUp (first : Registry StoredType) : Orderly twoGrownCalls first := by
    refine horderly twoGrownCalls first (Or.inl fun call hcall ↦ ?_)
    rcases List.mem_pair.mp hcall with rfl | rfl
    · exact Block.givesUp_ofList _
    · exact Block.givesUp_ofList _
  obtain ⟨careless, grown, hnew, hrun, hrun', hold⟩ : ∃ careless grown : Registry StoredType,
      Orderly (carelessCalls .characterCodec) careless ∧
      empty.after (((carelessCalls .characterCodec).map GrownCall.shorter).forM
        GroupCall.perform) = .ok careless ∧
      empty.after (((carelessCalls .characterCodec).map GrownCall.longer ++ [thirdCall]).forM
        GroupCall.perform) = .ok grown ∧
      careless.typeOf? .config = some ⟨.plain .config, 164⟩ := by
    refine ⟨_, _, horderly _ _ (Or.inr ⟨by decide, fun call hcall key hasks ↦ ?_⟩), rfl, rfl, rfl⟩
    rcases List.mem_pair.mp hcall with rfl | rfl
    · obtain ⟨_, hmem, rfl⟩ := Block.exists_of_asks_ofList hasks
      obtain rfl := List.mem_singleton.mp hmem
      decide
    · cases hasks
  have hstable := hgrown twoGrownCalls [thirdCall] _ _ (hgivesUp _) rfl rfl
  have hkept := hgrown (carelessCalls .characterCodec) [thirdCall] _ _ hnew hrun hrun'
  exact ⟨_, _, careless, grown, hgivesUp _, rfl, rfl, rfl, rfl, hstable.1 _ _ rfl, hstable.2,
    hown (twoGrownCalls.map GrownCall.shorter) _ rfl, hnew, hrun, hrun', hkept.1 _ _ hold,
    hkept.2⟩

/-- A type moves to another identifier when it is appended to one block and another block goes on
without it, although both times all calls succeed. Then what was published is not honoured. -/
theorem identifier_moves_of_carelessCalls :
    ∃ first second : Registry StoredType,
      empty.after (((carelessCalls .config).map GrownCall.shorter).forM GroupCall.perform) =
        .ok first ∧
      empty.after (((carelessCalls .config).map GrownCall.longer ++ []).forM GroupCall.perform) =
        .ok second ∧
      first.typeOf? .config = some ⟨.plain .config, 164⟩ ∧
      second.typeOf? .config = some ⟨.plain .config, 101⟩ ∧
      second.verify first.manifest = .error (.identifierMoved "CodecConfig" 164 (some 101)) ∧
      ¬ Orderly (carelessCalls .config) first := by
  refine ⟨_, _, rfl, rfl, rfl, rfl, by decide, fun horderly ↦ ?_⟩
  obtain ⟨hfails, _⟩ := horderly ⟨"second", .register (.plain .config) fun _ ↦ .done, .done⟩
    (List.mem_cons_of_mem _ (List.mem_singleton_self _))
  have hasks : Block.Asks StoredType.config (.ofList [.plain .config]) := Or.inl rfl
  exact hfails ⟨by decide, Or.inl ⟨_, List.mem_cons_self .., hasks⟩⟩ (.duplicateGroup "second")

end Registry

end HuffmanCoding
