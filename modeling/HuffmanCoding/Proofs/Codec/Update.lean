import HuffmanCoding.Codec.Update
import Mathlib.Data.Nat.Notation

/-!
# What updates keep

An update leaves a codec behind whether it succeeds or fails. It keeps a property if the codec that
it leaves behind has the property as soon as the codec before had it (`Update.Keeps`). Updates that
keep a property can be put one after the other and applied to a part of a codec, so the property
holds after any sequence of them.
-/

set_option autoImplicit false
set_option relaxedAutoImplicit false

namespace HuffmanCoding.Update

variable {C P α β : Type} {property : C → Prop}

def leftBy : EStateM.Result Error (Monitored C) α → C
  | .ok _ left => left.codec
  | .error _ left => left.codec

/-- A codec with the property has it still after the update, also after one that fails. -/
def Keeps (update : Update C α) (property : C → Prop) : Prop :=
  ∀ monitored : Monitored C, property monitored.codec → property (leftBy (update.run monitored))

/-! ### Steps -/

theorem keeps_pure (value : α) : Keeps (pure value : Update C α) property :=
  fun _ h ↦ h

theorem keeps_throw (error : Error) : Keeps (throw error : Update C α) property :=
  fun _ h ↦ h

theorem keeps_codec : Keeps codec property :=
  fun _ h ↦ h

theorem keeps_ofExcept (result : Except Error α) :
    Keeps (ofExcept result : Update C α) property := by
  cases result with
  | ok value => exact keeps_pure value
  | error error => exact keeps_throw error

theorem run_hearing_ok {computation : Logged α} {monitored : Monitored C} {value : α}
    {log : WarningLog} (h : computation.run monitored.log = .ok value log) :
    (hearing computation).run monitored = .ok value ⟨monitored.codec, log⟩ := by
  show hearing computation monitored = _
  unfold hearing
  rw [h]

theorem run_hearing_error {computation : Logged α} {monitored : Monitored C} {error : Error}
    {log : WarningLog} (h : computation.run monitored.log = .error error log) :
    (hearing computation).run monitored = .error error ⟨monitored.codec, log⟩ := by
  show hearing computation monitored = _
  unfold hearing
  rw [h]

/-- A computation that leaves the codec alone keeps everything. -/
theorem keeps_hearing (computation : Logged α) : Keeps (hearing computation) property := by
  intro monitored h
  cases hrun : computation.run monitored.log with
  | ok value log =>
    rw [run_hearing_ok hrun]
    exact h
  | error error log =>
    rw [run_hearing_error hrun]
    exact h

/-! ### Composition -/

/-- Two updates one after the other keep what both keep. -/
theorem Keeps.bind {first : Update C α} {next : α → Update C β} (hfirst : first.Keeps property)
    (hnext : ∀ value, (next value).Keeps property) : (first >>= next).Keeps property := by
  intro monitored h
  have hleft := hfirst monitored h
  rw [EStateM.run_bind]
  cases hrun : first.run monitored with
  | ok value left =>
    rw [hrun] at hleft
    exact hnext value left hleft
  | error error left =>
    rw [hrun] at hleft
    exact hleft

/-- An update that looks at the codec may rely on the property. -/
theorem keeps_codec_bind {next : C → Update C β}
    (h : ∀ codec, property codec → (next codec).Keeps property) :
    Keeps (codec >>= next) property :=
  fun monitored hcodec ↦ h monitored.codec hcodec monitored hcodec

theorem keeps_forM {items : List α} {update : α → Update C Unit}
    (h : ∀ item, (update item).Keeps property) : Keeps (items.forM update) property := by
  induction items with
  | nil => exact keeps_pure ()
  | cons item items ih =>
    show Keeps (update item >>= fun _ ↦ items.forM update) property
    exact (h item).bind fun _ ↦ ih

/-- An update of a part leaves the changed part in the place of the part that was there. -/
theorem run_onPart (part : C → P) (putPart : C → P → C) (update : Update P α) (codec : C)
    (log : WarningLog) :
    (onPart part putPart update).run ⟨codec, log⟩ = match update.run ⟨part codec, log⟩ with
      | .ok value left => .ok value ⟨putPart codec left.codec, left.log⟩
      | .error error left => .error error ⟨putPart codec left.codec, left.log⟩ := by
  show onPart part putPart update ⟨codec, log⟩ = _
  unfold onPart
  cases update.run ⟨part codec, log⟩ with
  | ok value left => rfl
  | error error left => rfl

/-- An update of a part keeps what each change of the part keeps. -/
theorem keeps_onPart {part : C → P} {putPart : C → P → C} {update : Update P α}
    {kept : P → Prop} (hupdate : update.Keeps kept)
    (hpart : ∀ codec, property codec → kept (part codec))
    (hput : ∀ codec changed, property codec → kept changed → property (putPart codec changed)) :
    Keeps (update.onPart part putPart) property := by
  rintro ⟨codec, log⟩ h
  have hleft := hupdate ⟨part codec, log⟩ (hpart _ h)
  rw [run_onPart]
  cases hrun : update.run ⟨part codec, log⟩ with
  | ok value left =>
    rw [hrun] at hleft
    exact hput _ _ h hleft
  | error error left =>
    rw [hrun] at hleft
    exact hput _ _ h hleft

/-- What an update keeps, it keeps when it is performed on a codec. -/
theorem Keeps.perform {update : Update C α} (h : update.Keeps property) {codec : C}
    (hcodec : property codec) : property (update.perform codec).2.codec := by
  have hleft := h ⟨codec, []⟩ hcodec
  unfold Update.perform
  cases hrun : update.run ⟨codec, []⟩ with
  | ok value left =>
    rw [hrun] at hleft
    exact hleft
  | error error left =>
    rw [hrun] at hleft
    exact hleft

end HuffmanCoding.Update
