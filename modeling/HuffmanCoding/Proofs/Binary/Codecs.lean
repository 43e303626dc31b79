import HuffmanCoding.Binary.Codecs
import HuffmanCoding.Proofs.Binary
import HuffmanCoding.Proofs.Codec.Saving

/-!
# Stored codecs are read back

A codec is stored without its tables, and reading it derives them again. So it is read back if its
tables are those of its counts and it learns unless it has tables (`readsBack_codec`). A codec that
is made of others is read back if these are.

Whatever is read was checked on the way (`Decoder.Yields`), so a codec that comes out of any bytes
is one of those that come about (`yields_reachable`). In particular it can be read back again.
-/

set_option autoImplicit false
set_option relaxedAutoImplicit false

namespace HuffmanCoding

open Decoder

variable {α β : Type}

/-! ### What decoders yield -/

/-- Whatever the decoder yields has the property. -/
def Decoder.Yields (read : Decoder α) (property : α → Prop) : Prop :=
  ∀ bytes value rest, read.run bytes = .ok value rest → property value

theorem Decoder.yields_pure {property : α → Prop} {value : α} (h : property value) :
    Yields (pure value) property := by
  intro bytes other rest hrun
  cases hrun
  exact h

theorem Decoder.yields_throw {property : α → Prop} (fault : FormatFault) :
    Yields (throw fault : Decoder α) property := by
  intro bytes value rest hrun
  cases hrun

/-- What comes out at the end has the property if it follows from what came out before. -/
theorem Decoder.Yields.bind {known : α → Prop} {property : β → Prop} {first : Decoder α}
    {next : α → Decoder β} (hfirst : first.Yields known)
    (hnext : ∀ value, known value → (next value).Yields property) :
    (first >>= next).Yields property := by
  intro bytes result rest hrun
  rw [EStateM.run_bind] at hrun
  cases hvalue : first.run bytes with
  | error fault left =>
    rw [hvalue] at hrun
    cases hrun
  | ok value left =>
    rw [hvalue] at hrun
    exact hnext value (hfirst bytes value left hvalue) left result rest hrun

theorem Decoder.Yields.mono {known property : α → Prop} {read : Decoder α} (h : read.Yields known)
    (himplies : ∀ value, known value → property value) : read.Yields property :=
  fun bytes value rest hrun ↦ himplies value (h bytes value rest hrun)

/-- Nothing is known of what a decoder yields. -/
theorem Decoder.yields_true (read : Decoder α) : read.Yields fun _ ↦ True :=
  fun _ _ _ _ ↦ trivial

namespace Binary

theorem yields_accept (checked : Except Error α) :
    (accept checked).Yields fun value ↦ checked = .ok value := by
  cases checked with
  | ok value => exact yields_pure rfl
  | error error => exact yields_throw _

theorem yields_readAlternative {property : α → Prop} {alternatives : List (Decoder α)}
    (h : ∀ fields ∈ alternatives, fields.Yields property) :
    (readAlternative alternatives).Yields property := by
  refine (yields_true (readWord 4)).bind fun number _ ↦ ?_
  cases hfields : alternatives[number]? with
  | none => exact yields_throw _
  | some fields => exact h fields (List.mem_of_getElem? hfields)

/-- What the bytes hold has the property of all that is read. -/
theorem property_of_ofBytes [Binary α] {property : α → Prop}
    (h : (decode : Decoder α).Yields property) {bytes : List UInt8} {value : α}
    (hvalue : ofBytes bytes = .ok value) : property value := by
  unfold ofBytes at hvalue
  cases hrun : (decode : Decoder α).run bytes with
  | ok read rest =>
    rw [hrun] at hvalue
    cases hvalue
    exact h bytes value rest hrun
  | error fault rest =>
    rw [hrun] at hvalue
    cases hvalue

/-! ### Tables -/

instance : LawfulBinary TableConfig where
  length_pos := fun _ ↦ Nat.succ_pos _
  gives := fun config h ↦ by
    have hfields : encode config = encode config.lengthBound ++ (encode config.windowWidth ++
        (encode config.hasEscape ++ encode config.escapeWeight)) := by
      show _ ++ _ ++ _ ++ _ = _
      simp only [List.append_assoc]
    rw [hfields] at h ⊢
    refine (readsBack config.lengthBound).bind h fun h ↦ ?_
    refine (readsBack config.windowWidth).bind h fun h ↦ ?_
    refine (readsBack config.hasEscape).bind h fun h ↦ ?_
    exact (readsBack config.escapeWeight).finish h (gives_pure config)

instance : LawfulBinary Codeword where
  length_pos := fun _ ↦ Nat.succ_pos _
  gives := fun codeword h ↦ (readsBack codeword.bits).bind h fun hlength ↦
    (readsBack codeword.length).finish hlength (gives_pure codeword)

instance : LawfulBinary TableRecord where
  length_pos := fun record ↦ by
    show 0 < (encode record.escape ++ encode record.longest).length
    rw [List.length_append]
    exact Nat.add_pos_left (LawfulBinary.length_pos record.escape) _
  gives := fun record h ↦ (readsBack record.escape).bind h fun hlongest ↦
    (readsBack record.longest).finish hlongest (gives_pure record)

section Symbols

variable {S : Type} [Symbol S]

/-- Weights that are put in one after the other are put in together. -/
theorem weights_foldl_replace (entries : List (S × Weight)) (table : Frequencies S) :
    (entries.foldl (fun table (symbol, weight) ↦ table.replace symbol weight) table).weights =
      table.weights.insertMany entries := by
  induction entries generalizing table with
  | nil => rfl
  | cons entry entries ih =>
    rw [List.foldl_cons, ih, Std.ExtTreeMap.insertMany_cons]
    rfl

/-- The counts come back from the list of their entries. -/
theorem foldl_replace_toList (frequencies : Frequencies S) :
    frequencies.toList.foldl (fun table (symbol, weight) ↦ table.replace symbol weight) .empty =
      frequencies := by
  have hweights : (∅ : Std.ExtTreeMap S Weight compare).insertMany frequencies.weights.toList =
      frequencies.weights := by
    apply Std.ExtTreeMap.ext_getElem?
    intro symbol
    cases hweight : frequencies.weights[symbol]? with
    | some weight =>
      refine Std.ExtTreeMap.getElem?_insertMany_list_of_mem Std.ReflCmp.compare_self
        Std.ExtTreeMap.distinct_keys_toList ?_
      exact Std.ExtTreeMap.mem_toList_iff_getElem?_eq_some.mpr hweight
    | none =>
      rw [Std.ExtTreeMap.getElem?_insertMany_list_of_contains_eq_false]
      · exact Std.ExtTreeMap.getElem?_empty
      · rw [Std.ExtTreeMap.map_fst_toList_eq_keys, Bool.eq_false_iff, Ne, List.contains_iff_mem,
          Std.ExtTreeMap.mem_keys, Std.ExtTreeMap.mem_iff_isSome_getElem?, hweight]
        exact Bool.false_ne_true
  have hsame := weights_foldl_replace frequencies.toList .empty
  rw [Frequencies.toList, Frequencies.empty, hweights] at hsame
  exact congrArg Frequencies.mk hsame

variable [Binary S] [LawfulBinary S]

instance : LawfulBinary (Frequencies S) where
  length_pos := fun frequencies ↦ LawfulBinary.length_pos frequencies.toList
  gives := fun frequencies h ↦ by
    refine (readsBack frequencies.toList).finish h ?_
    rw [foldl_replace_toList]
    exact gives_pure frequencies

instance : LawfulBinary (SavedCodec S) where
  length_pos := fun _ ↦ Nat.succ_pos _
  gives := fun saved h ↦ by
    have hfields : encode saved = encode saved.config ++ (encode saved.isTrainable ++
        (encode saved.frequencies ++ encode saved.record)) := by
      show _ ++ _ ++ _ ++ _ = _
      simp only [List.append_assoc]
    rw [hfields] at h ⊢
    refine (readsBack saved.config).bind h fun h ↦ ?_
    refine (readsBack saved.isTrainable).bind h fun h ↦ ?_
    refine (readsBack saved.frequencies).bind h fun h ↦ ?_
    exact (readsBack saved.record).finish h (gives_pure saved)

/-! ### Codecs -/

/-- A restorable codec is read back. -/
theorem readsBack_codec {codec : Codec S} (h : codec.IsRestorable) : ReadsBack codec :=
  fun hsize ↦ (readsBack codec.saved).finish hsize (gives_accept h.ofSaved_saved)

omit [LawfulBinary S] in
/-- What is read as a codec is one of those that come about. -/
theorem yields_reachable : (decode : Decoder (Codec S)).Yields Codec.Reachable :=
  (yields_true decode).bind fun _ _ ↦ (yields_accept _).mono fun _ h ↦ .ofSaved h

omit [LawfulBinary S] in
theorem yields_isRestorable : (decode : Decoder (Codec S)).Yields Codec.IsRestorable :=
  yields_reachable.mono fun _ h ↦ Codec.isLasting_isRestorable.of_reachable h

end Symbols

end Binary

open Binary

/-! ### Codecs that are made of codecs -/

namespace CharacterCodec

def IsRestorable (codec : CharacterCodec) : Prop :=
  codec.codec.IsRestorable

theorem IsRestorable.readsBack {codec : CharacterCodec} (h : codec.IsRestorable) :
    ReadsBack codec :=
  fun hsize ↦ (readsBack_codec h).finish hsize (gives_pure codec)

theorem yields_isRestorable : (Binary.decode : Decoder CharacterCodec).Yields IsRestorable :=
  Binary.yields_isRestorable.bind fun _ h ↦ yields_pure h

end CharacterCodec

namespace TextCodec

/-- Both codecs of a codec for texts are restorable. -/
def IsRestorable (codec : TextCodec) : Prop :=
  codec.HasParts Codec.IsRestorable Codec.IsRestorable

theorem IsRestorable.readsBack {codec : TextCodec} (h : codec.IsRestorable) :
    ReadsBack codec := by
  intro hsize
  have hfields : Binary.encode codec = Binary.encode codec.cutoff ++
      (Binary.encode codec.texts ++ Binary.encode codec.characters) := by
    show _ ++ _ ++ _ = _
    rw [List.append_assoc]
  rw [hfields] at hsize ⊢
  refine (Binary.readsBack codec.cutoff).bind hsize fun hsize ↦ ?_
  refine (readsBack_codec h.texts).bind hsize fun hsize ↦ ?_
  exact (readsBack_codec h.characters).finish hsize (gives_pure codec)

theorem yields_isRestorable : (Binary.decode : Decoder TextCodec).Yields IsRestorable :=
  (yields_true Binary.decode).bind fun _ _ ↦ Binary.yields_isRestorable.bind fun _ htexts ↦
    Binary.yields_isRestorable.bind fun _ hcharacters ↦ yields_pure ⟨htexts, hcharacters⟩

end TextCodec

namespace TextListCodec

def IsRestorable (codec : TextListCodec) : Prop :=
  codec.texts.IsRestorable

theorem IsRestorable.readsBack {codec : TextListCodec} (h : codec.IsRestorable) :
    ReadsBack codec :=
  fun hsize ↦ (TextCodec.IsRestorable.readsBack h).finish hsize (gives_pure codec)

theorem yields_isRestorable : (Binary.decode : Decoder TextListCodec).Yields IsRestorable :=
  TextCodec.yields_isRestorable.bind fun _ h ↦ yields_pure h

end TextListCodec

namespace AnyCodec

def IsRestorable : AnyCodec → Prop
  | characters codec => codec.IsRestorable
  | texts codec => codec.IsRestorable
  | textLists codec => codec.IsRestorable

theorem IsRestorable.readsBack {codec : AnyCodec} (h : codec.IsRestorable) : ReadsBack codec := by
  intro hsize
  have hinner {C : Type} [Binary C] {inner : C} {number : ℕ}
      (hsize : (word 4 number ++ Binary.encode inner).length < UInt64.size) :
      (Binary.encode inner).length < UInt64.size :=
    (List.sublist_append_right _ _).length_le.trans_lt hsize
  cases codec with
  | characters codec =>
    exact gives_readAlternative (by decide) rfl
      ((CharacterCodec.IsRestorable.readsBack h).finish (hinner hsize) (gives_pure _))
  | texts codec =>
    exact gives_readAlternative (by decide) rfl
      ((TextCodec.IsRestorable.readsBack h).finish (hinner hsize) (gives_pure _))
  | textLists codec =>
    exact gives_readAlternative (by decide) rfl
      ((TextListCodec.IsRestorable.readsBack h).finish (hinner hsize) (gives_pure _))

theorem yields_isRestorable : (Binary.decode : Decoder AnyCodec).Yields IsRestorable := by
  refine yields_readAlternative fun fields hfields ↦ ?_
  simp only [List.mem_cons, List.not_mem_nil, or_false] at hfields
  rcases hfields with rfl | rfl | rfl
  · exact CharacterCodec.yields_isRestorable.bind fun _ h ↦ yields_pure h
  · exact TextCodec.yields_isRestorable.bind fun _ h ↦ yields_pure h
  · exact TextListCodec.yields_isRestorable.bind fun _ h ↦ yields_pure h

end AnyCodec

end HuffmanCoding
