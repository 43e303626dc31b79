import HuffmanCoding.CodecFile
import HuffmanCoding.Proofs.Registry.Identifiers

/-!
# Files are read back

A file is read back from the front of any bytes that start with it, if its header is that of its
payload (`CodecFile.read_append`), which it is in every file that was packed. What was packed is
unpacked again, and it is refused as a value of any other registered type
(`CodecFile.exists_roundTrips`).
-/

set_option autoImplicit false
set_option relaxedAutoImplicit false

namespace HuffmanCoding

open Binary (ReadsBack readsBack)

/-! ### Headers -/

namespace FileHeader

/-- The header has the mark and the version of the format. -/
structure IsCurrent (header : FileHeader) : Prop where
  magic_eq : header.magic = fileMagic
  version_eq : header.version = fileVersion

variable {header : FileHeader}

theorem length_toBytes (h : header.IsCurrent) : header.toBytes.length = size := by
  show (header.magic ++ Binary.word 2 _ ++ Binary.word 4 _ ++ Binary.word 8 _).length = _
  simp only [List.length_append, Binary.length_word, h.magic_eq]
  rfl

/-- The fields behind the mark are read back. -/
theorem gives_fields (header : FileHeader) : (fields header.magic).Gives
    (Binary.encode header.version ++ (Binary.encode header.identifier ++
      Binary.encode header.payloadSize)) header := by
  have hsize : (Binary.encode header.version ++ (Binary.encode header.identifier ++
      Binary.encode header.payloadSize)).length < UInt64.size := by
    show (Binary.word 2 _ ++ (Binary.word 4 _ ++ Binary.word 8 _)).length < _
    simp only [List.length_append, Binary.length_word]
    decide
  refine (readsBack header.version).bind hsize fun hsize ↦ ?_
  refine (readsBack header.identifier).bind hsize fun hsize ↦ ?_
  exact (readsBack header.payloadSize).finish hsize (Decoder.gives_pure header)

/-- A header comes back from its bytes. -/
theorem ofBytes_toBytes (h : header.IsCurrent) : ofBytes header.toBytes = .ok header := by
  have hmagic : header.toBytes.take 4 = header.magic := by
    simp only [toBytes, List.append_assoc]
    exact List.take_left' (by rw [h.magic_eq]; rfl)
  have hfields : header.toBytes.drop 4 = Binary.encode header.version ++
      (Binary.encode header.identifier ++ Binary.encode header.payloadSize) := by
    simp only [toBytes, List.append_assoc]
    exact List.drop_left' (by rw [h.magic_eq]; rfl)
  have hrun := gives_fields header []
  rw [List.append_nil, h.magic_eq] at hrun
  rw [ofBytes, if_neg (by rw [length_toBytes h]; exact Nat.lt_irrefl _)]
  simp only [hmagic, h.magic_eq, hfields, hrun, ne_eq, not_true_eq_false, if_false]
  rw [if_neg (not_not.mpr h.version_eq)]

end FileHeader

/-! ### Files -/

namespace CodecFile

/-- The header is current and tells the size of the payload. -/
structure IsWellFormed (file : CodecFile) : Prop where
  isCurrent : file.header.IsCurrent
  payloadSize_eq : file.header.payloadSize.toNat = file.payload.length

/-- A file is read back, and what stands behind it is left. -/
theorem read_append {file : CodecFile} (h : file.IsWellFormed) (rest : List UInt8) :
    read (file.toBytes ++ rest) = .ok (file, rest) := by
  have hlength := FileHeader.length_toBytes h.isCurrent
  have hheader : (file.toBytes ++ rest).take FileHeader.size = file.header.toBytes := by
    rw [toBytes, List.append_assoc]
    exact List.take_left' hlength
  have hbehind : (file.toBytes ++ rest).drop FileHeader.size = file.payload ++ rest := by
    rw [toBytes, List.append_assoc]
    exact List.drop_left' hlength
  have hlong : ¬ (file.toBytes ++ rest).length < FileHeader.size := by
    rw [toBytes, List.length_append, List.length_append, hlength]
    omega
  have hpayload : ¬ (file.payload ++ rest).length < file.payload.length := by
    rw [List.length_append]
    omega
  rw [read, if_neg hlong, hheader, hbehind, FileHeader.ofBytes_toBytes h.isCurrent]
  show (if (file.payload ++ rest).length < file.header.payloadSize.toNat then _
    else Except.ok _ : Except Error (CodecFile × List UInt8)) = _
  rw [h.payloadSize_eq, if_neg hpayload, List.take_left, List.drop_left]

/-! ### Packed values -/

variable {κ : Type} [TypeKeys κ] [DecidableEq κ]

/-- A value is packed into the file and unpacked from it again, also after the file was written and
read, and the file is refused as a value of any other registered type. -/
structure RoundTrips (registry : Registry κ) (key : κ) (value : TypeKeys.Value key)
    (file : CodecFile) : Prop where
  pack_eq : pack registry key value = .ok file
  read_eq : ∀ rest, read (file.toBytes ++ rest) = .ok (file, rest)
  unpack_eq : file.unpack registry key = .ok value
  foreign : ∀ other type, other ≠ key → registry.typeOf? other = some type →
    file.unpack registry other = .error (.registration (.foreignPayload
      (TypeKeys.typeName other) type.identifier.toNat file.header.identifier.toNat))

variable {registry : Registry κ} {key : κ}

/-- A value of a registered type is packed behind the identifier of the type. -/
theorem pack_eq_ok {value : TypeKeys.Value key} {type : RegisteredType κ} {payload : List UInt8}
    (htype : registry.typeOf? key = some type)
    (hwrite : (type.formatOf key).write value = .ok payload) :
    pack registry key value =
      .ok ⟨.ofPayload type.identifier (UInt64.ofNat payload.length), payload⟩ := by
  have hbytes := Registry.serialize_eq_ok_iff.mpr ⟨type, payload, htype, hwrite, rfl⟩
  refine Outcome.bind_eq_ok_iff.mpr ⟨_, hbytes, Outcome.bind_eq_ok_iff.mpr
    ⟨_, Registry.identifierOf_append type.identifier payload, ?_⟩⟩
  rw [Registry.drop_encode_append]
  rfl

/-- A value whose format can read what it wrote makes the round trip. -/
theorem exists_roundTrips (h : registry.IsConsistent) {value : TypeKeys.Value key}
    {type : RegisteredType κ} {payload : List UInt8} (htype : registry.typeOf? key = some type)
    (hwrite : (type.formatOf key).write value = .ok payload)
    (hread : (type.formatOf key).read payload = .ok value)
    (hsize : payload.length < UInt64.size) : ∃ file, RoundTrips registry key value file := by
  refine ⟨_, pack_eq_ok htype hwrite, ?_, ?_, ?_⟩
  · exact read_append ⟨⟨rfl, rfl⟩, UInt64.toNat_ofNat_of_lt' hsize⟩
  · show registry.deserialize key (Binary.encode type.identifier ++ payload) = _
    rw [Registry.deserialize_append htype, if_pos rfl, hread]
  · intro other stranger hne hstranger
    exact h.deserialize_of_ne hne.symm htype hstranger payload

end CodecFile

end HuffmanCoding
