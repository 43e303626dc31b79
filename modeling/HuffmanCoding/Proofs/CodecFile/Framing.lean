import HuffmanCoding.Proofs.CodecFile

/-!
# Where a file begins and ends

A file is read from the front of a source of bytes. Its header says how long it is, and these bytes
are not to be trusted, so the claimed size only bounds what is read.

A decoder obeys a spelling if whatever it yields is spelled by the bytes that it takes from the
front (`Decoder.Obeys`). The fields of a header are numbers of fixed size, each with one spelling,
and a header is read from its own bytes only (`FileHeader.of_ofBytes`). So is a file: reading some
bytes yields a file exactly if they begin with its bytes (`CodecFile.read_eq_ok_iff`), and a file
that was cut off anywhere is refused (`CodecFile.read_of_cut`).
-/

set_option autoImplicit false
set_option relaxedAutoImplicit false

namespace HuffmanCoding

/-! ### What decoders take -/

namespace Decoder

variable {α β : Type}

/-- Whatever the decoder yields is spelled by the bytes that it takes from the front. -/
def Obeys (read : Decoder α) (spells : List UInt8 → α → Prop) : Prop :=
  ∀ ⦃bytes rest : List UInt8⦄ ⦃value : α⦄, read.run bytes = .ok value rest →
    ∃ taken, bytes = taken ++ rest ∧ spells taken value

theorem obeys_pure {value : α} {spells : List UInt8 → α → Prop} (h : spells [] value) :
    Obeys (pure value) spells := by
  intro bytes rest other hrun
  cases hrun
  exact ⟨[], rfl, h⟩

/-- Behind what the first decoder took, the second one obeys what is left of the spelling. -/
theorem Obeys.bind {first : Decoder α} {next : α → Decoder β} {spells : List UInt8 → α → Prop}
    {target : List UInt8 → β → Prop} (hfirst : first.Obeys spells)
    (hnext : ∀ taken value, spells taken value →
      (next value).Obeys fun more result ↦ target (taken ++ more) result) :
    (first >>= next).Obeys target := by
  intro bytes rest result hrun
  rw [EStateM.run_bind] at hrun
  cases hvalue : first.run bytes with
  | error fault left =>
    rw [hvalue] at hrun
    cases hrun
  | ok value left =>
    rw [hvalue] at hrun
    obtain ⟨taken, rfl, htaken⟩ := hfirst hvalue
    obtain ⟨more, rfl, hmore⟩ := hnext taken value htaken hrun
    exact ⟨taken ++ more, (List.append_assoc _ _ _).symm, hmore⟩

end Decoder

open Decoder

namespace Binary

variable {α : Type}

theorem obeys_readByte : readByte.Obeys fun taken byte ↦ taken = [byte] := by
  intro bytes rest byte hrun
  cases bytes with
  | nil => cases hrun
  | cons low others =>
    cases hrun
    exact ⟨[byte], rfl, rfl⟩

/-- A number is spelled by its bytes, lowest first, and fits into them. -/
theorem obeys_readWord (size : ℕ) : (readWord size).Obeys fun taken value ↦
    taken = word size value ∧ value < 256 ^ size := by
  induction size with
  | zero => exact obeys_pure ⟨rfl, Nat.one_pos⟩
  | succ size ih =>
    refine obeys_readByte.bind fun first low hfirst ↦ ih.bind fun others high hothers ↦ ?_
    obtain ⟨rfl, hhigh⟩ := hothers
    have hlow : low.toNat < 256 := low.toNat_lt
    have hquotient : (low.toNat + 256 * high) / 256 = high := by omega
    have hbyte : UInt8.ofNat (low.toNat + 256 * high) = low := by
      apply UInt8.toNat.inj
      rw [UInt8.toNat_ofNat', Nat.add_mul_mod_self_left, Nat.mod_eq_of_lt hlow]
    apply obeys_pure
    refine ⟨?_, ?_⟩
    · rw [hfirst, List.append_nil, word, hbyte, hquotient, List.singleton_append]
    · rw [pow_succ]
      omega

/-- A word of fixed size is spelled by the bytes of its number. -/
theorem obeys_ofWord {size : ℕ} {ofNat : ℕ → α} {toNat : α → ℕ}
    (h : ∀ value < 256 ^ size, toNat (ofNat value) = value) :
    (do return ofNat (← readWord size) : Decoder α).Obeys fun taken value ↦
      taken = word size (toNat value) := by
  refine (obeys_readWord size).bind fun taken value htaken ↦ obeys_pure ?_
  rw [h value htaken.2, List.append_nil]
  exact htaken.1

end Binary

/-! ### Headers -/

namespace FileHeader

variable {header : FileHeader} {bytes : List UInt8}

/-- The fields behind the mark are spelled one after the other. -/
theorem obeys_fields (magic : List UInt8) : (fields magic).Obeys fun taken header ↦
    header.magic = magic ∧ taken = Binary.encode header.version ++
      (Binary.encode header.identifier ++ Binary.encode header.payloadSize) := by
  have hversion : (Binary.decode : Decoder UInt16).Obeys fun taken value ↦
      taken = Binary.encode value := Binary.obeys_ofWord fun _ ↦ UInt16.toNat_ofNat_of_lt'
  have hidentifier : (Binary.decode : Decoder UInt32).Obeys fun taken value ↦
      taken = Binary.encode value := Binary.obeys_ofWord fun _ ↦ UInt32.toNat_ofNat_of_lt'
  have hpayloadSize : (Binary.decode : Decoder UInt64).Obeys fun taken value ↦
      taken = Binary.encode value := Binary.obeys_ofWord fun _ ↦ UInt64.toNat_ofNat_of_lt'
  refine hversion.bind fun first version hfirst ↦ hidentifier.bind fun second identifier hsecond ↦
    hpayloadSize.bind fun third payloadSize hthird ↦ obeys_pure ⟨rfl, ?_⟩
  rw [hfirst, hsecond, hthird, List.append_nil]

/-- A header that is read is current, and the bytes begin with its own. -/
theorem of_ofBytes (h : ofBytes bytes = .ok header) :
    header.IsCurrent ∧ header.toBytes <+: bytes := by
  unfold ofBytes at h
  dsimp only at h
  split_ifs at h with hshort hmagic
  cases hfields : (fields (bytes.take 4)).run (bytes.drop 4) with
  | error fault left =>
    rw [hfields] at h
    cases h
  | ok other left =>
    rw [hfields] at h
    dsimp only at h
    split_ifs at h with hversion
    cases h
    obtain ⟨taken, hrest, hother, htaken⟩ := obeys_fields _ hfields
    refine ⟨⟨hother.trans (not_not.mp hmagic), not_not.mp hversion⟩, left, ?_⟩
    calc header.toBytes ++ left = bytes.take 4 ++ (taken ++ left) := by
          rw [toBytes, hother, htaken]
          simp only [List.append_assoc]
      _ = bytes := by rw [← hrest, List.take_append_drop]

end FileHeader

/-! ### Files -/

namespace CodecFile

variable {file : CodecFile} {bytes rest start : List UInt8}

/-- A file that is read is well-formed, and it and the rest are all of the bytes. -/
theorem of_read (h : read bytes = .ok (file, rest)) :
    file.IsWellFormed ∧ bytes = file.toBytes ++ rest := by
  unfold read at h
  split_ifs at h with hshort
  obtain ⟨header, hheader, hpayload⟩ := Outcome.bind_eq_ok_iff.mp h
  dsimp only at hpayload
  split_ifs at hpayload with hcut
  cases hpayload
  obtain ⟨hcurrent, hbegins⟩ := FileHeader.of_ofBytes hheader
  have hsize : (bytes.take FileHeader.size).length = FileHeader.size := by
    rw [List.length_take]
    omega
  have hwhole : header.toBytes = bytes.take FileHeader.size :=
    hbegins.eq_of_length ((FileHeader.length_toBytes hcurrent).trans hsize.symm)
  refine ⟨⟨hcurrent, ?_⟩, ?_⟩
  · show header.payloadSize.toNat = ((bytes.drop FileHeader.size).take _).length
    rw [List.length_take]
    omega
  · rw [toBytes, hwhole, List.append_assoc, List.take_append_drop, List.take_append_drop]

/-- Reading yields a file exactly if the bytes begin with the bytes of the file. -/
theorem read_eq_ok_iff :
    read bytes = .ok (file, rest) ↔ file.IsWellFormed ∧ bytes = file.toBytes ++ rest := by
  refine ⟨of_read, ?_⟩
  rintro ⟨hformed, rfl⟩
  exact read_append hformed rest

theorem length_toBytes (h : file.IsWellFormed) :
    file.toBytes.length = FileHeader.size + file.header.payloadSize.toNat := by
  rw [toBytes, List.length_append, FileHeader.length_toBytes h.isCurrent, h.payloadSize_eq]

/-- What is reported of the first `length` bytes of a file, if there are more. -/
def cutError (file : CodecFile) (length : ℕ) : Error :=
  if length < FileHeader.size then .input .tooShort
  else .serialization (.payloadSize (length - FileHeader.size) file.payload.length)

/-- A file that was cut off anywhere is refused. -/
theorem read_of_cut (h : file.IsWellFormed) (hstart : start <+: file.toBytes)
    (hcut : start ≠ file.toBytes) : read start = .error (file.cutError start.length) := by
  have hheader := FileHeader.length_toBytes h.isCurrent
  have hless : start.length < file.header.toBytes.length + file.payload.length := by
    rw [← List.length_append]
    exact lt_of_le_of_ne hstart.length_le (mt hstart.eq_of_length hcut)
  unfold read cutError
  by_cases hshort : start.length < FileHeader.size
  · rw [if_pos hshort, if_pos hshort]
  · have hbegin : start.take FileHeader.size = file.header.toBytes := by
      rw [← hheader]
      exact (List.prefix_iff_eq_take.mp (List.prefix_of_prefix_length_le
        (List.prefix_append _ _) hstart (by omega))).symm
    have hrest : (start.drop FileHeader.size).length < file.header.payloadSize.toNat := by
      rw [List.length_drop, h.payloadSize_eq]
      omega
    rw [if_neg hshort, if_neg hshort, hbegin, FileHeader.ofBytes_toBytes h.isCurrent]
    show (if (start.drop FileHeader.size).length < file.header.payloadSize.toNat then _
      else Except.ok _ : Except Error (CodecFile × List UInt8)) = _
    rw [if_pos hrest, List.length_drop, h.payloadSize_eq]

/-- A well-formed file is read back from the front of any bytes that begin with it, and what stands
behind it is left. Cut off anywhere, it is refused. Whatever is read from any bytes is a well-formed
file, which takes exactly as many bytes from their front as its header says. -/
theorem framing_isExact (file : CodecFile) :
    (file.IsWellFormed →
      (∀ rest, read (file.toBytes ++ rest) = .ok (file, rest)) ∧
      ∀ start, start <+: file.toBytes → start ≠ file.toBytes →
        read start = .error (file.cutError start.length)) ∧
    ∀ bytes rest, read bytes = .ok (file, rest) →
      file.IsWellFormed ∧
        file.toBytes = bytes.take (FileHeader.size + file.header.payloadSize.toNat) ∧
        rest = bytes.drop (FileHeader.size + file.header.payloadSize.toNat) := by
  refine ⟨fun h ↦ ⟨read_append h, fun start ↦ read_of_cut h⟩, fun bytes rest hread ↦ ?_⟩
  obtain ⟨hformed, rfl⟩ := of_read hread
  have hlength := length_toBytes hformed
  exact ⟨hformed, (List.take_left' hlength).symm, (List.drop_left' hlength).symm⟩

/-- A file with a payload of three bytes is read back in front of a byte that does not belong to it.
Without its last byte it is refused, and so are the first bytes of its header. -/
theorem framing_isExact_of_three_bytes :
    ∃ file : CodecFile, file.IsWellFormed ∧ file.payload = [1, 2, 3] ∧
      read (file.toBytes ++ [4]) = .ok (file, [4]) ∧
      file.toBytes = (file.toBytes ++ [4]).take 21 ∧
      read (file.toBytes.take 20) = .error (.serialization (.payloadSize 2 3)) ∧
      read (file.toBytes.take 17) = .error (.input .tooShort) := by
  have hformed : IsWellFormed ⟨.ofPayload 101 3, [1, 2, 3]⟩ := ⟨⟨rfl, rfl⟩, rfl⟩
  obtain ⟨hexact, hread⟩ := framing_isExact ⟨.ofPayload 101 3, [1, 2, 3]⟩
  obtain ⟨hwhole, hcut⟩ := hexact hformed
  refine ⟨_, hformed, rfl, hwhole [4], (hread _ _ (hwhole [4])).2.1, ?_, ?_⟩
  · exact hcut _ (List.take_prefix _ _) (by decide)
  · exact hcut _ (List.take_prefix _ _) (by decide)

end CodecFile

end HuffmanCoding
