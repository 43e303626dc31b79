import HuffmanCoding.Binary

/-!
# Registries of stored types

A stored value carries the identifier of its type in front. Identifiers are published, so a type
keeps its identifier for ever: types are registered in groups, each group owns a block of
identifiers, and the types of a group take the identifiers of its block in the order of their
registration. A new type goes to the end of a group and a new group behind the others.

`Registry.verify` holds a registry against a list of published identifiers, each group of which has
to be the beginning of the group in the registry.

Types are named by keys. A family of keys says which Lean type a key stands for, under which name
the type is published and how its values are written; a registration can put another way of writing
in the place of that one.

Beside the groups a registry holds two indexes, which lead from a key and from an identifier to the
slot of the type. A registration enters a type at all three places. What is done while a group is
open is a `Block`: it registers types one after the other and sees the outcome of each registration.
-/

set_option autoImplicit false
set_option relaxedAutoImplicit false

namespace HuffmanCoding

/-- A way to write the values of a type, and to read them back. -/
structure Format (α : Type) where
  write : α → Except Error (List UInt8)
  read : List UInt8 → Except Error α

/-- The way to write that the type itself has. -/
def Format.ofBinary (α : Type) [Binary α] : Format α where
  write := fun value ↦ .ok (Binary.encode value)
  read := fun bytes ↦ (Binary.ofBytes bytes).mapError Error.serialization

/-- A family of keys that stand for types with stored values. -/
class TypeKeys (κ : Type) where
  Value : κ → Type
  typeName : κ → String
  format : (key : κ) → Format (Value key)

/-- Two families of keys are one family together. -/
instance {κ ι : Type} [TypeKeys κ] [TypeKeys ι] : TypeKeys (κ ⊕ ι) where
  Value
    | .inl key => TypeKeys.Value key
    | .inr key => TypeKeys.Value key
  typeName
    | .inl key => TypeKeys.typeName key
    | .inr key => TypeKeys.typeName key
  format
    | .inl key => TypeKeys.format key
    | .inr key => TypeKeys.format key

/-- A type that is to be registered. -/
structure Registration (κ : Type) [TypeKeys κ] where
  key : κ
  custom : Option (Format (TypeKeys.Value key))

/-- A registration that leaves values to be written in the usual way. -/
def Registration.plain {κ : Type} [TypeKeys κ] (key : κ) : Registration κ :=
  ⟨key, none⟩

/-- A registered type. -/
structure RegisteredType (κ : Type) [TypeKeys κ] extends Registration κ where
  identifier : UInt32

/-- Types whose identifiers lie in the block that starts at `base`, in the order of their
registration. -/
structure TypeGroup (κ : Type) [TypeKeys κ] where
  name : String
  base : UInt32
  types : List (RegisteredType κ)

/-- Where a registered type stands: the place of its group among the groups, and its own place in
the group. -/
structure Slot where
  group : Nat
  position : Nat
  deriving DecidableEq, Repr

/-- A table that gives a slot to some keys. -/
structure Index (κ : Type) where
  rows : List (κ × Slot)

namespace Index

variable {κ : Type}

def empty : Index κ := ⟨[]⟩

def size (index : Index κ) : Nat :=
  index.rows.length

variable [DecidableEq κ]

def find? (index : Index κ) (key : κ) : Option Slot :=
  index.rows.lookup key

/-- Gives a slot to a key, in the place of the one that it had. -/
def insert (index : Index κ) (key : κ) (slot : Slot) : Index κ :=
  ⟨(key, slot) :: index.rows.filter (·.1 ≠ key)⟩

end Index

/-- Groups of registered types, in the order of their registration. -/
structure Registry (κ : Type) [TypeKeys κ] where
  groups : List (TypeGroup κ)
  byKey : Index κ
  byIdentifier : Index UInt32

/-- A published identifier. -/
structure PublishedType where
  group : String
  typeName : String
  identifier : UInt32
  deriving DecidableEq, Repr

namespace RegisteredType

variable {κ : Type} [TypeKeys κ]

def typeName (type : RegisteredType κ) : String :=
  TypeKeys.typeName type.key

/-- How values of the type with the given key are written. -/
def formatOf [DecidableEq κ] (type : RegisteredType κ) (key : κ) : Format (TypeKeys.Value key) :=
  if same : type.key = key then same ▸ type.custom.getD (TypeKeys.format type.key)
  else TypeKeys.format key

def describe (type : RegisteredType κ) : String :=
  SpelledOut.record "TypeEntry"
    [("type_name", Quoted.text type.typeName), ("identifier", toString type.identifier),
      ("custom", toString type.custom.isSome)]

end RegisteredType

def TypeGroup.describe {κ : Type} [TypeKeys κ] (group : TypeGroup κ) : String :=
  SpelledOut.record "RegistrationGroup"
    [("name", Quoted.text group.name), ("base", toString group.base),
      ("entries", SpelledOut.list (group.types.map RegisteredType.describe))]

namespace Registry

variable {κ : Type} [TypeKeys κ]

/-- The number of identifiers in the block of a group. -/
def capacity : Nat := 64

def empty : Registry κ := ⟨[], .empty, .empty⟩

def types (registry : Registry κ) : List (RegisteredType κ) :=
  registry.groups.flatMap (·.types)

def size (registry : Registry κ) : Nat :=
  registry.byKey.size

def group? (registry : Registry κ) (name : String) : Option (TypeGroup κ) :=
  registry.groups.find? (·.name = name)

/-- The type in a slot, if there is one. -/
def typeAt? (registry : Registry κ) (slot : Slot) : Option (RegisteredType κ) :=
  registry.groups[slot.group]?.bind (·.types[slot.position]?)

def typeWith? (registry : Registry κ) (identifier : UInt32) : Option (RegisteredType κ) :=
  (registry.byIdentifier.find? identifier).bind registry.typeAt?

def typeOf? [DecidableEq κ] (registry : Registry κ) (key : κ) : Option (RegisteredType κ) :=
  (registry.byKey.find? key).bind registry.typeAt?

/-- The published names and identifiers of all types, group by group. -/
def manifest (registry : Registry κ) : List PublishedType :=
  registry.groups.flatMap fun group ↦
    group.types.map fun type ↦ ⟨group.name, type.typeName, type.identifier⟩

def describe (registry : Registry κ) : String :=
  SpelledOut.list (registry.groups.map TypeGroup.describe)

/-- The first identifier of the next block. Blocks are counted off by the number of groups, also
where a group has its block elsewhere. -/
def nextBase (registry : Registry κ) : UInt32 :=
  UInt32.ofNat (100 + registry.groups.length * capacity)

end Registry

/-! ### Registration -/

/-- A computation that works on a registry. It can fail, and what it has done by then stays done. -/
abbrev Registering (κ : Type) [TypeKeys κ] := EStateM RegistrationFault (Registry κ)

/-- What is done while a group is open. -/
inductive Block (κ : Type) [TypeKeys κ] where
  | done
  | stop (fault : RegistrationFault)
  | register (registration : Registration κ) (next : Except RegistrationFault UInt32 → Block κ)

namespace Registry

variable {κ : Type} [TypeKeys κ]

/-- Puts a type behind the others of a group, and into both indexes. -/
def insert [DecidableEq κ] (registry : Registry κ) (slot : Slot) (type : RegisteredType κ) :
    Registry κ where
  groups := registry.groups.modify slot.group fun group ↦
    { group with types := group.types ++ [type] }
  byKey := registry.byKey.insert type.key slot
  byIdentifier := registry.byIdentifier.insert type.identifier slot

/-- Registers a type at the end of a group. There is nothing to give away behind the last group. -/
def enter [DecidableEq κ] (place : Nat) (registration : Registration κ) :
    Registering κ UInt32 := do
  let registry ← get
  let some group := registry.groups[place]? | throw (.groupFull "" capacity)
  let name := TypeKeys.typeName registration.key
  if (registry.byKey.find? registration.key).isSome then
    throw (.duplicateType name group.name)
  let position := group.types.length
  let number := group.base.toNat + position
  if capacity ≤ position ∨ UInt32.size ≤ number then
    throw (.groupFull group.name capacity)
  let identifier := UInt32.ofNat number
  if let some owner := registry.byIdentifier.find? identifier then
    throw (.identifierTaken number name ((registry.typeAt? owner).elim "" (·.typeName)))
  set (registry.insert ⟨place, position⟩ ⟨registration, identifier⟩)
  return identifier

end Registry

namespace Block

variable {κ : Type} [TypeKeys κ]

/-- Registers types one after the other, and gives up at the first one that is refused. -/
def ofList : List (Registration κ) → Block κ
  | [] => done
  | registration :: rest => register registration fun
    | .ok _ => ofList rest
    | .error fault => stop fault

def run [DecidableEq κ] (place : Nat) : Block κ → Registering κ Unit
  | done => return
  | stop fault => throw fault
  | register registration next => do
    let outcome ← observing (Registry.enter place registration)
    (next outcome).run place

end Block

namespace Registry

variable {κ : Type} [TypeKeys κ] [DecidableEq κ]

/-- Opens a group whose block of identifiers starts at a given one, and does what is to be done in
it. -/
def addGroupAt (name : String) (base : UInt32) (block : Block κ) : Registering κ Unit := do
  let registry ← get
  if registry.groups.any (·.name = name) then throw (.duplicateGroup name)
  let opened : TypeGroup κ := ⟨name, base, []⟩
  set { registry with groups := registry.groups ++ [opened] }
  block.run registry.groups.length

/-- Opens a group with the next block of identifiers, and does what is to be done in it. -/
def addGroup (name : String) (block : Block κ) : Registering κ Unit := do
  addGroupAt name (← get).nextBase block

/-- The registry that a computation leaves, unless it fails. -/
def after (registry : Registry κ) (work : Registering κ Unit) :
    Except RegistrationFault (Registry κ) :=
  match work.run registry with
  | .ok _ next => .ok next
  | .error fault _ => .error fault

/-- The registry with one more group, whose block of identifiers starts at a given one. -/
def openGroupAt (registry : Registry κ) (name : String) (base : UInt32) :
    Except RegistrationFault (Registry κ) :=
  registry.after (addGroupAt name base .done)

/-- The registry with one more group, which has the next block of identifiers. -/
def openGroup (registry : Registry κ) (name : String) : Except RegistrationFault (Registry κ) :=
  registry.after (addGroup name .done)

/-- The registry with more types at the end of the group that was opened last. -/
def registerAll (registry : Registry κ) (registrations : List (Registration κ)) :
    Except RegistrationFault (Registry κ) :=
  registry.after ((Block.ofList registrations).run (registry.groups.length - 1))

/-- The registry with one more type at the end of the group that was opened last. -/
def register (registry : Registry κ) (registration : Registration κ) :
    Except RegistrationFault (Registry κ) :=
  registry.registerAll [registration]

end Registry

namespace Registry

variable {κ : Type} [TypeKeys κ]

/-! ### Published identifiers -/

/-- Holds published rows against a registry, where `passed` names the groups of the rows in front of
them. -/
def verifyAfter (registry : Registry κ) (passed : List String) :
    List PublishedType → Except RegistrationFault Unit
  | [] => .ok ()
  | row :: rest =>
    let found := (registry.group? row.group).bind (·.types[passed.count row.group]?)
    if found.any fun type ↦ type.typeName = row.typeName ∧ type.identifier = row.identifier then
      registry.verifyAfter (row.group :: passed) rest
    else
      let elsewhere := registry.types.find? (·.typeName = row.typeName)
      .error (.identifierMoved row.typeName row.identifier.toNat
        (elsewhere.map (·.identifier.toNat)))

/-- Fails at the first published row that the registry does not honour: the rows of one group have
to be the first types of that group, in their order and with their identifiers. -/
def verify (registry : Registry κ) (published : List PublishedType) :
    Except RegistrationFault Unit :=
  registry.verifyAfter [] published

/-! ### Stored values -/

def identifierOf (bytes : List UInt8) : Except Error UInt32 :=
  match (Binary.decode : Decoder UInt32).run bytes with
  | .ok identifier _ => .ok identifier
  | .error _ _ => .error (.serialization (.noIdentifier bytes.length))

/-- The registration of a type, which has to be there. -/
def registered [DecidableEq κ] (registry : Registry κ) (key : κ) :
    Except Error (RegisteredType κ) :=
  match registry.typeOf? key with
  | some type => .ok type
  | none => .error (.registration (.unregistered (TypeKeys.typeName key)))

/-- The bytes of a value behind the identifier of its type. -/
def serialize [DecidableEq κ] (registry : Registry κ) (key : κ) (value : TypeKeys.Value key) :
    Except Error (List UInt8) := do
  let type ← registry.registered key
  let payload ← (type.formatOf key).write value
  return Binary.encode type.identifier ++ payload

/-- The value of a type that was stored behind the identifier of that type. -/
def deserialize [DecidableEq κ] (registry : Registry κ) (key : κ) (bytes : List UInt8) :
    Except Error (TypeKeys.Value key) := do
  let type ← registry.registered key
  let identifier ← identifierOf bytes
  if identifier = type.identifier then (type.formatOf key).read (bytes.drop 4)
  else
    .error (.registration (.foreignPayload type.typeName type.identifier.toNat
      identifier.toNat))

end Registry

end HuffmanCoding
