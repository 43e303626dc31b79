import HuffmanCoding.Proofs.Registry.Consistent

/-!
# Registries under construction

A registry is built by calls, each of which opens a group and runs a block in it. Whatever the
blocks do, only two kinds of steps change the registry: a group is opened, or a type is registered
(`Registry.Reached`). Both keep it consistent, so it is consistent after every step
(`Reached.isConsistent`). Every sequence of calls consists of such steps, so what they keep holds
after all calls (`IsKept.calls`).

A block can stop at any place. What it leaves behind then is what a longer block sees there, so a
statement about all sequences of calls speaks of the registry in the middle of a block, too.
-/

set_option autoImplicit false
set_option relaxedAutoImplicit false

namespace HuffmanCoding

/-- The block may register a type. -/
def Block.Asks {κ : Type} [TypeKeys κ] (key : κ) : Block κ → Prop
  | .done => False
  | .stop _ => False
  | .register registration next => registration.key = key ∨ ∃ outcome, (next outcome).Asks key

namespace Registry

variable {κ : Type} [TypeKeys κ]

/-- The registry that a computation leaves behind, also one that fails. -/
def leftBy {α : Type} : EStateM.Result RegistrationFault (Registry κ) α → Registry κ
  | .ok _ left => left
  | .error _ left => left

/-- A call that adds a group, in the next block of identifiers unless it is pinned to another one.
-/
structure GroupCall (κ : Type) [TypeKeys κ] where
  name : String
  pinned : Option UInt32
  block : Block κ

variable [DecidableEq κ]

def GroupCall.perform (call : GroupCall κ) : Registering κ Unit :=
  match call.pinned with
  | some base => addGroupAt call.name base call.block
  | none => addGroup call.name call.block

/-- The registries that come about step by step. -/
inductive Reached : Registry κ → Prop where
  | empty : Reached .empty
  | opened {registry : Registry κ} (h : Reached registry) {name : String}
    (hname : name ∉ registry.groups.map (·.name)) (base : UInt32) :
    Reached { registry with groups := registry.groups ++ [⟨name, base, []⟩] }
  | entered {registry : Registry κ} (h : Reached registry) (place : ℕ)
    (registration : Registration κ) :
    Reached (leftBy ((enter place registration).run registry))

variable {registry : Registry κ}

/-- A registration that is refused changes nothing. -/
theorem eq_of_run_enter_eq_error {place : ℕ} {registration : Registration κ}
    {fault : RegistrationFault} {left : Registry κ}
    (h : (enter place registration).run registry = .error fault left) : left = registry := by
  rcases enter_cases registry place registration with ⟨other, hrun⟩ | ⟨_, _, _, _, hrun⟩
  · rw [hrun] at h
    cases h
    rfl
  · rw [hrun] at h
    cases h

theorem Reached.isConsistent (h : registry.Reached) : registry.IsConsistent := by
  induction h with
  | empty => exact isConsistent_empty
  | opened _ hname base ih => exact ih.append hname base
  | @entered registry _ place registration ih =>
    rcases enter_cases registry place registration with
      ⟨fault, hrun⟩ | ⟨group, identifier, hgroup, hadmits, hrun⟩
    · rw [hrun]
      exact ih
    · rw [hrun]
      exact ih.insert hgroup hadmits

/-! ### Blocks and calls -/

omit [DecidableEq κ] in
/-- Observing a computation takes its failure for a value. -/
theorem run_observing {α : Type} (work : Registering κ α) (registry : Registry κ) :
    (observing work : Registering κ (Except RegistrationFault α)).run registry =
      match work.run registry with
      | .ok value left => .ok (.ok value) left
      | .error fault left => .ok (.error fault) left := by
  show EStateM.tryCatch
    (EStateM.bind work fun value ↦ EStateM.pure (Except.ok value : Except RegistrationFault α))
    (fun fault ↦ EStateM.pure (Except.error fault)) registry = match work registry with
      | .ok value left => .ok (.ok value) left
      | .error fault left => .ok (.error fault) left
  unfold EStateM.tryCatch EStateM.bind
  cases work registry with
  | ok value left => rfl
  | error fault left => rfl

/-- A block goes on after a registration that succeeds. -/
theorem run_register_of_ok {place : ℕ} {registration : Registration κ} {identifier : UInt32}
    {left : Registry κ} (h : (enter place registration).run registry = .ok identifier left)
    (next : Except RegistrationFault UInt32 → Block κ) :
    ((Block.register registration next).run place).run registry =
      ((next (.ok identifier)).run place).run left := by
  show (observing (enter place registration) >>=
    fun outcome ↦ (next outcome).run place).run registry = _
  rw [EStateM.run_bind, run_observing, h]

/-- A block sees that a registration is refused, and goes on with the registry as it was. -/
theorem run_register_of_error {place : ℕ} {registration : Registration κ}
    {fault : RegistrationFault}
    (h : (enter place registration).run registry = .error fault registry)
    (next : Except RegistrationFault UInt32 → Block κ) :
    ((Block.register registration next).run place).run registry =
      ((next (.error fault)).run place).run registry := by
  show (observing (enter place registration) >>=
    fun outcome ↦ (next outcome).run place).run registry = _
  rw [EStateM.run_bind, run_observing, h]

omit [DecidableEq κ] in
theorem any_name_iff (registry : Registry κ) (name : String) :
    (registry.groups.any (·.name = name)) = true ↔ name ∈ registry.groups.map (·.name) := by
  simp [List.mem_map]

/-- A group whose name is taken is refused. -/
theorem run_addGroupAt_of_mem {name : String} (h : name ∈ registry.groups.map (·.name))
    (base : UInt32) (block : Block κ) :
    (addGroupAt name base block).run registry = .error (.duplicateGroup name) registry := by
  unfold addGroupAt
  simp only [EStateM.run_bind, EStateM.run_get, (any_name_iff registry name).mpr h, if_true]
  rfl

/-- A group with a new name is opened, and its block goes on from there. -/
theorem run_addGroupAt_of_notMem {name : String} (h : name ∉ registry.groups.map (·.name))
    (base : UInt32) (block : Block κ) : (addGroupAt name base block).run registry =
      (block.run registry.groups.length).run
        { registry with groups := registry.groups ++ [⟨name, base, []⟩] } := by
  unfold addGroupAt
  simp only [EStateM.run_bind, EStateM.run_get, mt (any_name_iff registry name).mp h]
  rfl

/-- A group is added if its name is new and its block ends well. -/
theorem run_addGroupAt_eq_ok_iff {name : String} {base : UInt32} {block : Block κ}
    {left : Registry κ} : (addGroupAt name base block).run registry = .ok () left ↔
      name ∉ registry.groups.map (·.name) ∧ (block.run registry.groups.length).run
        { registry with groups := registry.groups ++ [⟨name, base, []⟩] } = .ok () left := by
  by_cases hold : name ∈ registry.groups.map (·.name)
  · rw [run_addGroupAt_of_mem hold]
    exact ⟨fun h ↦ (by cases h), fun h ↦ absurd hold h.1⟩
  · rw [run_addGroupAt_of_notMem hold, and_iff_right hold]

omit [DecidableEq κ] in
/-- Two things that are done one after the other succeed if both do. -/
theorem run_bind_eq_ok_iff {work rest : Registering κ Unit} {left : Registry κ} :
    (work >>= fun _ ↦ rest).run registry = .ok () left ↔
      ∃ next, work.run registry = .ok () next ∧ rest.run next = .ok () left := by
  rw [EStateM.run_bind]
  cases work.run registry with
  | error fault left => simp
  | ok value next => simp

omit [DecidableEq κ] in
/-- A computation that does not fail leads to the registry that it leaves. -/
theorem after_eq_ok_iff {left : Registry κ} {work : Registering κ Unit} :
    registry.after work = .ok left ↔ work.run registry = .ok () left := by
  unfold after
  cases work.run registry with
  | ok value next => simp
  | error fault next => simp

/-! ### What the steps keep -/

/-- What each registration of a block keeps, the block keeps. -/
theorem leftBy_run_block (property : Registry κ → Prop) (block : Block κ) (place : ℕ)
    (hentered : ∀ registration, block.Asks registration.key → ∀ registry, property registry →
      property (leftBy ((enter place registration).run registry)))
    (h : property registry) : property (leftBy ((block.run place).run registry)) := by
  induction block generalizing registry with
  | done => exact h
  | stop fault => exact h
  | register registration next ih =>
    have hleft := hentered registration (Or.inl rfl) registry h
    have hnext (outcome : Except RegistrationFault UInt32) {left : Registry κ}
        (hproperty : property left) :
        property (leftBy (((next outcome).run place).run left)) :=
      ih outcome (fun other hasks ↦ hentered other (Or.inr ⟨outcome, hasks⟩)) hproperty
    cases hrun : (enter place registration).run registry with
    | ok identifier left =>
      rw [hrun] at hleft
      rw [run_register_of_ok hrun]
      exact hnext _ hleft
    | error fault left =>
      obtain rfl := eq_of_run_enter_eq_error hrun
      rw [run_register_of_error hrun]
      exact hnext _ h

/-- A block adds no group. -/
theorem length_run_block (block : Block κ) (place : ℕ) (registry : Registry κ) :
    (leftBy ((block.run place).run registry)).groups.length = registry.groups.length := by
  refine leftBy_run_block (fun left ↦ left.groups.length = registry.groups.length) block place
    (fun registration _ left hleft ↦ ?_) rfl
  rcases enter_cases left place registration with ⟨fault, hrun⟩ | ⟨group, _, _, _, hrun⟩
  · rw [hrun]
    exact hleft
  · rw [hrun]
    exact (length_insert ..).trans hleft

/-- A call that succeeds adds one group. -/
theorem length_of_run_addGroupAt {name : String} {base : UInt32} {block : Block κ}
    {left : Registry κ} (h : (addGroupAt name base block).run registry = .ok () left) :
    left.groups.length = registry.groups.length + 1 := by
  have hlength := length_run_block block registry.groups.length
    { registry with groups := registry.groups ++ [⟨name, base, []⟩] }
  rw [(run_addGroupAt_eq_ok_iff.mp h).2] at hlength
  exact hlength.trans List.length_append

/-- A property of registries that holds after each step if it held before. -/
structure IsKept (property : Registry κ → Prop) : Prop where
  opened : ∀ registry, property registry → ∀ name, name ∉ registry.groups.map (·.name) →
    ∀ base, property { registry with groups := registry.groups ++ [⟨name, base, []⟩] }
  entered : ∀ registry, property registry → ∀ place registration,
    property (leftBy ((enter place registration).run registry))

theorem isKept_reached : IsKept (Reached (κ := κ)) where
  opened := fun _ h _ hname base ↦ h.opened hname base
  entered := fun _ h place registration ↦ h.entered place registration

section Kept

variable {property : Registry κ → Prop} (hkept : IsKept property) (h : property registry)

include hkept h

theorem IsKept.addGroupAt (name : String) (base : UInt32) (block : Block κ) :
    property (leftBy ((addGroupAt name base block).run registry)) := by
  by_cases hold : name ∈ registry.groups.map (·.name)
  · rw [run_addGroupAt_of_mem hold]
    exact h
  · rw [run_addGroupAt_of_notMem hold]
    exact leftBy_run_block property block _ (fun registration _ left hleft ↦
      hkept.entered left hleft _ registration) (hkept.opened registry h name hold base)

theorem IsKept.perform (call : GroupCall κ) : property (leftBy (call.perform.run registry)) := by
  obtain ⟨name, pinned, block⟩ := call
  cases pinned with
  | some base => exact hkept.addGroupAt h name base block
  | none => exact hkept.addGroupAt h name registry.nextBase block

/-- Whatever calls do one after the other, up to the first one that fails, they do step by step. -/
theorem IsKept.calls (calls : List (GroupCall κ)) :
    property (leftBy ((calls.forM GroupCall.perform).run registry)) := by
  induction calls generalizing registry with
  | nil => exact h
  | cons call calls ih =>
    have hcall := hkept.perform h call
    show property (leftBy ((call.perform >>= fun _ ↦ calls.forM GroupCall.perform).run registry))
    rw [EStateM.run_bind]
    cases hrun : call.perform.run registry with
    | error fault left =>
      rw [hrun] at hcall
      exact hcall
    | ok value left =>
      rw [hrun] at hcall
      exact ih hcall

end Kept

/-- Every sequence of calls leaves a registry that comes about step by step. -/
theorem Reached.calls (h : registry.Reached) (calls : List (GroupCall κ)) :
    Reached (leftBy ((calls.forM GroupCall.perform).run registry)) :=
  isKept_reached.calls h calls

end Registry

end HuffmanCoding
