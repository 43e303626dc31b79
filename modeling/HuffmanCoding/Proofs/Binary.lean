import HuffmanCoding.Binary
import HuffmanCoding.Proofs.Literals

/-!
# Stored values are read back

A decoder gives a value for some bytes if it yields the value and leaves exactly what stands behind
the bytes (`Decoder.Gives`). Decoders of this kind can be put one after the other (`Gives.bind`), so
the statement goes from numbers (`Binary.gives_readWord`) over alternatives and counted sequences to
every type whose values are made of such parts (`LawfulBinary`).

A text or a list starts with the number of its bytes or items, which has room below 2^64. The stored
form of a value is longer than each of these numbers, so a value is read back as soon as the size of
its stored form is below 2^64, and bytes in a memory with addresses of 64 digits are never more.
-/

set_option autoImplicit false
set_option relaxedAutoImplicit false

namespace HuffmanCoding

variable {α β : Type}

namespace Decoder

/-- The decoder yields the value for the bytes, whatever stands behind them, and leaves that. -/
def Gives (read : Decoder α) (bytes : List UInt8) (value : α) : Prop :=
  ∀ rest, read.run (bytes ++ rest) = .ok value rest

/-! ### Composition -/

theorem gives_pure (value : α) : Gives (pure value) [] value :=
  fun _ ↦ rfl

/-- Two decoders one after the other give their values for the bytes one after the other. -/
theorem Gives.bind {first : Decoder α} {next : α → Decoder β} {bytes more : List UInt8} {value : α}
    {result : β} (hfirst : first.Gives bytes value) (hnext : (next value).Gives more result) :
    (first >>= next).Gives (bytes ++ more) result := by
  intro rest
  rw [List.append_assoc, EStateM.run_bind, hfirst (more ++ rest)]
  exact hnext rest

/-- The last decoder may leave everything. -/
theorem Gives.finish {first : Decoder α} {next : α → Decoder β} {bytes : List UInt8} {value : α}
    {result : β} (hfirst : first.Gives bytes value) (hnext : (next value).Gives [] result) :
    (first >>= next).Gives bytes result := by
  have hbind := hfirst.bind hnext
  rwa [List.append_nil] at hbind

end Decoder

open Decoder

/-- A type whose values are read back if their size can be written down. -/
class LawfulBinary (α : Type) [Binary α] : Prop where
  length_pos : ∀ value : α, 0 < (Binary.encode value).length
  gives : ∀ value : α, (Binary.encode value).length < UInt64.size →
    Gives Binary.decode (Binary.encode value) value

namespace Binary

/-- The value is read back from its stored form, if the size of that can be written down. -/
def ReadsBack [Binary α] (value : α) : Prop :=
  (encode value).length < UInt64.size → Gives decode (encode value) value

theorem readsBack [Binary α] [LawfulBinary α] (value : α) : ReadsBack value :=
  LawfulBinary.gives value

/-- A field is read back in front of others. -/
theorem ReadsBack.bind [Binary α] {value : α} (h : ReadsBack value) {next : α → Decoder β}
    {more : List UInt8} {result : β} (hsize : (encode value ++ more).length < UInt64.size)
    (hnext : more.length < UInt64.size → (next value).Gives more result) :
    Gives (decode >>= next) (encode value ++ more) result := by
  rw [List.length_append] at hsize
  exact (h (by omega)).bind (hnext (by omega))

/-- The last field is read back. -/
theorem ReadsBack.finish [Binary α] {value : α} (h : ReadsBack value) {next : α → Decoder β}
    {result : β} (hsize : (encode value).length < UInt64.size)
    (hnext : (next value).Gives [] result) : Gives (decode >>= next) (encode value) result :=
  (h hsize).finish hnext

/-! ### Numbers -/

@[simp] theorem length_word (size value : ℕ) : (word size value).length = size := by
  induction size generalizing value with
  | zero => rfl
  | succ size ih => rw [word, List.length_cons, ih]

theorem gives_readByte (byte : UInt8) : Gives readByte [byte] byte :=
  fun _ ↦ rfl

/-- A number that fits into its bytes is read back. -/
theorem gives_readWord {size value : ℕ} (h : value < 256 ^ size) :
    Gives (readWord size) (word size value) value := by
  induction size generalizing value with
  | zero =>
    have hzero : value = 0 := by omega
    rw [hzero]
    exact gives_pure 0
  | succ size ih =>
    have hhigh : value / 256 < 256 ^ size := by
      rw [Nat.div_lt_iff_lt_mul (by decide)]
      rwa [pow_succ] at h
    refine (gives_readByte (UInt8.ofNat value)).bind ((ih hhigh).finish ?_)
    have hvalue : (UInt8.ofNat value).toNat + 256 * (value / 256) = value :=
      Nat.mod_add_div value 256
    rw [hvalue]
    exact gives_pure value

instance : LawfulBinary UInt8 where
  length_pos := fun _ ↦ Nat.one_pos
  gives := fun value _ ↦ gives_readByte value

instance : LawfulBinary UInt16 where
  length_pos := fun _ ↦ by
    simp [encode]
  gives := fun value _ ↦ (gives_readWord value.toNat_lt).finish
    (by rw [UInt16.ofNat_toNat]; exact gives_pure value)

instance : LawfulBinary UInt32 where
  length_pos := fun _ ↦ by
    simp [encode]
  gives := fun value _ ↦ (gives_readWord value.toNat_lt).finish
    (by rw [UInt32.ofNat_toNat]; exact gives_pure value)

instance : LawfulBinary UInt64 where
  length_pos := fun _ ↦ by
    simp [encode]
  gives := fun value _ ↦ (gives_readWord value.toNat_lt).finish
    (by rw [UInt64.ofNat_toNat]; exact gives_pure value)

instance : LawfulBinary Weight where
  length_pos := fun _ ↦ by
    simp [encode]
  gives := fun weight _ ↦ by
    have hsmall : weight.toNat < 256 ^ 8 := Nat.lt_succ_of_le weight.toNat_le
    refine (gives_readWord hsmall).finish ?_
    rw [Weight.ofNat_toNat]
    exact gives_pure weight

/-! ### Alternatives -/

instance : LawfulBinary Bool where
  length_pos := fun _ ↦ Nat.one_pos
  gives := fun value _ ↦ by
    cases value with
    | false => exact (gives_readByte 0).finish (gives_pure false)
    | true => exact (gives_readByte 1).finish (gives_pure true)

instance [Binary α] [LawfulBinary α] : LawfulBinary (Option α) where
  length_pos := fun value ↦ by
    cases value with
    | none => exact Nat.one_pos
    | some value => exact Nat.succ_pos _
  gives := fun value h ↦ by
    cases value with
    | none => exact (gives_readByte 0).finish (gives_pure none)
    | some value =>
      have hsize : (encode value).length < UInt64.size := (Nat.lt_succ_self _).trans h
      exact (gives_readByte 1).bind ((readsBack value).finish hsize (gives_pure (some value)))

/-- An alternative is read by the decoder with its number. -/
theorem gives_readAlternative {alternatives : List (Decoder α)} {number : ℕ}
    {fields : Decoder α} {bytes : List UInt8} {value : α} (hnumber : number < 256 ^ 4)
    (hfields : alternatives[number]? = some fields) (hgives : fields.Gives bytes value) :
    (readAlternative alternatives).Gives (word 4 number ++ bytes) value := by
  refine (gives_readWord hnumber).bind ?_
  simp only [hfields]
  exact hgives

/-! ### Texts -/

theorem gives_readBytes (bytes : List UInt8) : (readBytes bytes.length).Gives bytes bytes := by
  intro rest
  show (if ((bytes ++ rest).take bytes.length).length < bytes.length then throw .endOfText
    else do
      set ((bytes ++ rest).drop bytes.length)
      return (bytes ++ rest).take bytes.length : Decoder (List UInt8)).run (bytes ++ rest) = _
  rw [List.take_left, List.drop_left, if_neg (Nat.lt_irrefl _)]
  rfl

/-- The first character of some bytes is the one whose bytes stand there. -/
theorem firstChar?_append (character : Char) (rest : List UInt8) :
    Utf8.firstChar? (String.utf8EncodeChar character ++ rest) = some (character, rest) := by
  have hsize : (String.utf8EncodeChar character).length = character.utf8Size :=
    String.length_utf8EncodeChar character
  have hfour : (String.utf8EncodeChar character).length ≤ 4 := by
    rw [hsize]
    exact character.utf8Size_le_four
  rw [Utf8.firstChar?, List.take_append, List.take_of_length_le hfour, List.toByteArray_append,
    ByteArray.utf8DecodeChar?_utf8EncodeChar_append, Option.map_some, ← hsize, List.drop_left]

instance : LawfulBinary Char where
  length_pos := fun character ↦ by
    show 0 < (String.utf8EncodeChar character).length
    rw [String.length_utf8EncodeChar]
    exact character.utf8Size_pos
  gives := fun character _ rest ↦ by
    show (if (String.utf8EncodeChar character ++ rest).isEmpty then throw .endOfInput
      else match Utf8.firstChar? (String.utf8EncodeChar character ++ rest) with
        | some (found, behind) => do
          set behind
          return found
        | none => throw .character : Decoder Char).run (String.utf8EncodeChar character ++ rest) = _
    have hsome : (String.utf8EncodeChar character ++ rest).isEmpty = false := by
      simp [String.utf8EncodeChar_ne_nil]
    rw [hsome, firstChar?_append]
    rfl

instance : LawfulBinary String where
  length_pos := fun text ↦ by
    simp [encode]
  gives := fun text h ↦ by
    have hsize : (Utf8.encode text).length < 256 ^ 8 :=
      lt_of_le_of_lt (List.sublist_append_right _ _).length_le h
    refine (gives_readWord hsize).bind ((gives_readBytes (Utf8.encode text)).finish ?_)
    simp only [Utf8.decode_encode]
    exact gives_pure text

/-! ### Sequences -/

/-- Values that are read back one by one are read back one after the other. -/
theorem gives_readManyAfter [Binary α] {values : List α}
    (h : ∀ value ∈ values, Gives decode (encode value) value) (found : List α) :
    (readManyAfter decode values.length found).Gives (values.flatMap encode)
      (found.reverse ++ values) := by
  induction values generalizing found with
  | nil =>
    rw [List.append_nil]
    exact gives_pure found.reverse
  | cons value values ih =>
    rw [List.forall_mem_cons] at h
    have hrest := ih h.2 (value :: found)
    rw [List.reverse_cons, List.append_assoc, List.singleton_append] at hrest
    exact h.1.bind hrest

theorem length_encode_le_of_mem [Binary α] {values : List α} {value : α} (h : value ∈ values) :
    (encode value).length ≤ (values.flatMap encode).length := by
  obtain ⟨before, behind, rfl⟩ := List.append_of_mem h
  simp only [List.flatMap_append, List.flatMap_cons, List.length_append]
  omega

/-- A list is read back if its values are and their number can be written down. -/
theorem gives_list [Binary α] {values : List α} (hcount : values.length < UInt64.size)
    (h : ∀ value ∈ values, Gives decode (encode value) value) :
    Gives decode (encode values) values :=
  (gives_readWord hcount).bind (gives_readManyAfter h [])

theorem length_le_length_flatMap_encode [Binary α] [LawfulBinary α] (values : List α) :
    values.length ≤ (values.flatMap encode).length := by
  induction values with
  | nil => exact Nat.zero_le _
  | cons value values ih =>
    have hpos := LawfulBinary.length_pos value
    rw [List.flatMap_cons, List.length_append, List.length_cons]
    omega

instance [Binary α] [LawfulBinary α] : LawfulBinary (List α) where
  length_pos := fun values ↦ by
    simp [encode]
  gives := fun values h ↦ by
    have hsize : (values.flatMap encode).length < UInt64.size :=
      lt_of_le_of_lt (List.sublist_append_right _ _).length_le h
    refine gives_list ((length_le_length_flatMap_encode values).trans_lt hsize) ?_
    intro value hvalue
    exact LawfulBinary.gives value ((length_encode_le_of_mem hvalue).trans_lt hsize)

instance [Binary α] [Binary β] [LawfulBinary α] [LawfulBinary β] : LawfulBinary (α × β) where
  length_pos := fun (first, second) ↦ by
    show 0 < (encode first ++ encode second).length
    rw [List.length_append]
    exact Nat.add_pos_left (LawfulBinary.length_pos first) _
  gives := fun (first, second) h ↦
    (readsBack first).bind h fun hsecond ↦ (readsBack second).finish hsecond (gives_pure _)

/-- What a decoder gives for all of the bytes is what they hold. -/
theorem ofBytes_of_gives [Binary α] {bytes : List UInt8} {value : α}
    (h : Gives decode bytes value) : ofBytes bytes = .ok value := by
  have hrun := h []
  rw [List.append_nil] at hrun
  rw [ofBytes, hrun]

/-- A value that a check after reading accepts is read. -/
theorem gives_accept {checked : Except Error α} {value : α} (h : checked = .ok value) :
    (accept checked).Gives [] value := by
  rw [h]
  exact gives_pure value

end Binary

end HuffmanCoding
