import HuffmanCoding.Proofs.Binary
import HuffmanCoding.Proofs.Outcome
import HuffmanCoding.Proofs.Registry.Building
import HuffmanCoding.Registry.StoredTypes

/-!
# What identifiers tell

A stored value starts with the identifier of its type (`Registry.serialize_eq_ok_iff`), and it is
read as a value of a registered type only if that is the identifier of the type
(`Registry.deserialize_append`). In a consistent registry different types have different
identifiers, so a stored value is never taken for one of another type. The main statement collects
what holds of every registry that calls build (`Registry.isSound_of_calls`).
-/

set_option autoImplicit false
set_option relaxedAutoImplicit false

namespace HuffmanCoding.Registry

variable {κ : Type} [TypeKeys κ] [DecidableEq κ] {registry : Registry κ} {key : κ}

/-! ### Stored values -/

/-- The first four bytes of a stored value are an identifier. -/
theorem identifierOf_append (identifier : UInt32) (payload : List UInt8) :
    identifierOf (Binary.encode identifier ++ payload) = .ok identifier := by
  have hsize : (Binary.encode identifier).length < UInt64.size := by
    show (Binary.word 4 identifier.toNat).length < UInt64.size
    rw [Binary.length_word]
    decide
  rw [identifierOf, LawfulBinary.gives identifier hsize payload]

theorem drop_encode_append (identifier : UInt32) (payload : List UInt8) :
    (Binary.encode identifier ++ payload).drop 4 = payload :=
  List.drop_left' (Binary.length_word 4 identifier.toNat)

theorem registered_eq_ok_iff {type : RegisteredType κ} :
    registry.registered key = .ok type ↔ registry.typeOf? key = some type := by
  unfold registered
  cases registry.typeOf? key with
  | none => simp
  | some other => simp

/-- The stored form of a value is the identifier of its type and the bytes that the format of the
type gives it. -/
theorem serialize_eq_ok_iff {value : TypeKeys.Value key} {bytes : List UInt8} :
    registry.serialize key value = .ok bytes ↔
      ∃ type payload, registry.typeOf? key = some type ∧
        (type.formatOf key).write value = .ok payload ∧
        bytes = Binary.encode type.identifier ++ payload := by
  simp only [serialize, Outcome.bind_eq_ok_iff, registered_eq_ok_iff, pure, Except.pure,
    Except.ok.injEq, @eq_comm _ _ bytes]
  constructor
  · rintro ⟨type, htype, payload, hpayload, hbytes⟩
    exact ⟨type, payload, htype, hpayload, hbytes⟩
  · rintro ⟨type, payload, htype, hpayload, hbytes⟩
    exact ⟨type, htype, payload, hpayload, hbytes⟩

/-- A stored value is read in the format of a registered type if it has the identifier of the
type, and is refused otherwise. -/
theorem deserialize_append {type : RegisteredType κ} (htype : registry.typeOf? key = some type)
    (identifier : UInt32) (payload : List UInt8) :
    registry.deserialize key (Binary.encode identifier ++ payload) =
      if identifier = type.identifier then (type.formatOf key).read payload
      else .error (.registration (.foreignPayload type.typeName type.identifier.toNat
        identifier.toNat)) := by
  rw [deserialize, registered_eq_ok_iff.mpr htype]
  simp only [identifierOf_append, drop_encode_append]
  rfl

/-- Nothing is read as a value of a type that is not registered. -/
theorem deserialize_of_typeOf?_eq_none (hnone : registry.typeOf? key = none)
    (bytes : List UInt8) : registry.deserialize key bytes =
      .error (.registration (.unregistered (TypeKeys.typeName key))) := by
  rw [deserialize, registered, hnone]
  rfl

/-- A stored value is not taken for one of another registered type. -/
theorem IsConsistent.deserialize_of_ne (h : registry.IsConsistent) {other : κ} (hne : key ≠ other)
    {own foreign : RegisteredType κ} (hown : registry.typeOf? key = some own)
    (hforeign : registry.typeOf? other = some foreign) (payload : List UInt8) :
    registry.deserialize other (Binary.encode own.identifier ++ payload) =
      .error (.registration (.foreignPayload (TypeKeys.typeName other) foreign.identifier.toNat
        own.identifier.toNat)) := by
  obtain ⟨hmem, hkey⟩ := h.typeOf?_eq_some_iff.mp hown
  obtain ⟨hmem', hkey'⟩ := h.typeOf?_eq_some_iff.mp hforeign
  have hdiffer : own.identifier ≠ foreign.identifier := by
    intro hsame
    have htypes := h.eq_of_identifier_eq hmem hmem' hsame
    rw [htypes, hkey'] at hkey
    exact hne hkey.symm
  rw [deserialize_append hforeign, if_neg hdiffer, RegisteredType.typeName, hkey']

/-! ### Registries that calls build -/

/-- What a user of a registry relies on: keys and identifiers lead to the types that are registered,
a registration that is refused changes nothing, and a stored value is refused as a value of any
other type. -/
structure IsSound (registry : Registry κ) : Prop where
  isConsistent : registry.IsConsistent
  typeOf_iff : ∀ key type, registry.typeOf? key = some type ↔
    type ∈ registry.types ∧ type.key = key
  typeWith_iff : ∀ identifier type, registry.typeWith? identifier = some type ↔
    type ∈ registry.types ∧ type.identifier = identifier
  size_eq : registry.size = registry.types.length
  refused : ∀ place registration fault left,
    (enter place registration).run registry = .error fault left → left = registry
  nextBase_eq : registry.groups.length < 2 ^ 25 →
    registry.nextBase.toNat = 100 + registry.groups.length * capacity
  foreign : ∀ key other (value : TypeKeys.Value key) bytes own stranger, key ≠ other →
    registry.typeOf? key = some own → registry.typeOf? other = some stranger →
    registry.serialize key value = .ok bytes → registry.deserialize other bytes =
      .error (.registration (.foreignPayload (TypeKeys.typeName other)
        stranger.identifier.toNat own.identifier.toNat))
  unregistered : ∀ key bytes, registry.typeOf? key = none → registry.deserialize key bytes =
    .error (.registration (.unregistered (TypeKeys.typeName key)))

omit [DecidableEq κ] in
theorem toNat_nextBase (h : registry.groups.length < 2 ^ 25) :
    registry.nextBase.toNat = 100 + registry.groups.length * capacity := by
  have hsmall : 100 + registry.groups.length * 64 < 2 ^ 32 := by omega
  exact UInt32.toNat_ofNat_of_lt hsmall

theorem Reached.isSound (h : registry.Reached) : registry.IsSound where
  isConsistent := h.isConsistent
  typeOf_iff := fun _ _ ↦ h.isConsistent.typeOf?_eq_some_iff
  typeWith_iff := fun _ _ ↦ h.isConsistent.typeWith?_eq_some_iff
  size_eq := h.isConsistent.size_byKey
  refused := fun _ _ _ _ hrun ↦ eq_of_run_enter_eq_error hrun
  nextBase_eq := toNat_nextBase
  foreign := by
    intro key other value bytes own stranger hne hown hstranger hbytes
    obtain ⟨type, payload, htype, _, rfl⟩ := serialize_eq_ok_iff.mp hbytes
    rw [hown, Option.some.injEq] at htype
    subst htype
    exact h.isConsistent.deserialize_of_ne hne hown hstranger payload
  unregistered := fun _ bytes hnone ↦ deserialize_of_typeOf?_eq_none hnone bytes

/-- Every registry that calls build is sound: after any calls, whatever their blocks register, in
which order they do so and which refusals they pass over, and also where a call fails on the way. -/
theorem isSound_of_calls (calls : List (GroupCall κ)) :
    (leftBy ((calls.forM GroupCall.perform).run .empty)).IsSound :=
  (Reached.empty.calls calls).isSound

/-- Three calls. The first one registers a codeword twice and then a configuration, the second one
passes over that the identifier it starts with is taken, and the third one begins in the middle of
the first block, behind the types that are there. -/
def threeCalls : List (GroupCall StoredType) :=
  [⟨"first", none, .register (.plain .codeword) fun _ ↦ .register (.plain .codeword) fun _ ↦
      .register (.plain .config) fun _ ↦ .done⟩,
    ⟨"taken", some 101, .register (.plain .stream) fun _ ↦ .done⟩,
    ⟨"behind", some 102, .register (.plain .stream) fun _ ↦ .done⟩]

/-- Of the five registrations three succeed. The stored codeword is refused as a configuration. -/
theorem isSound_of_three_calls :
    ∃ registry : Registry StoredType,
      registry = leftBy ((threeCalls.forM GroupCall.perform).run .empty) ∧
      registry.types.map (fun type ↦ (type.key, type.identifier)) =
        [(.codeword, 100), (.config, 101), (.stream, 102)] ∧
      registry.size = 3 ∧
      registry.serialize .codeword ⟨1, 1⟩ = .ok [100, 0, 0, 0, 1, 0, 0, 0, 1] ∧
      registry.deserialize .config [100, 0, 0, 0, 1, 0, 0, 0, 1] =
        .error (.registration (.foreignPayload "CodecConfig" 101 100)) ∧
      registry.IsSound := by
  have hsound := isSound_of_calls threeCalls
  exact ⟨_, rfl, rfl, hsound.size_eq,
    rfl, hsound.foreign .codeword .config ⟨1, 1⟩ _ _ _ (by decide) rfl rfl rfl, hsound⟩

/-- A stored value is not refused by its identifier as a value of a type that is not registered,
since there is no identifier to hold against it. -/
theorem deserialize_unregistered_of_one_call :
    ∃ registry : Registry StoredType,
      registry = leftBy (([(⟨"first", none, .ofList [.plain .codeword]⟩ :
        GroupCall StoredType)].forM GroupCall.perform).run .empty) ∧
      StoredType.codeword ≠ .config ∧
      registry.serialize .codeword ⟨1, 1⟩ = .ok [100, 0, 0, 0, 1, 0, 0, 0, 1] ∧
      registry.deserialize .config [100, 0, 0, 0, 1, 0, 0, 0, 1] =
        .error (.registration (.unregistered "CodecConfig")) ∧
      ¬ ∃ name expected found, registry.deserialize .config [100, 0, 0, 0, 1, 0, 0, 0, 1] =
        .error (.registration (.foreignPayload name expected found)) := by
  have hunregistered (registry : Registry StoredType) (hnone : registry.typeOf? .config = none) :
      registry.deserialize .config [100, 0, 0, 0, 1, 0, 0, 0, 1] =
        .error (.registration (.unregistered "CodecConfig")) :=
    deserialize_of_typeOf?_eq_none hnone _
  refine ⟨_, rfl, by decide, rfl, hunregistered _ rfl, ?_⟩
  rintro ⟨name, expected, found, h⟩
  rw [hunregistered _ rfl] at h
  cases h

end HuffmanCoding.Registry
