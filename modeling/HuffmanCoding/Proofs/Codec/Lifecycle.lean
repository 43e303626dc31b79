import HuffmanCoding.Proofs.Codec.Saving

/-!
# The life of a codec

A codec counts symbols, then has its tables built, and can be copied, given to another listener or
saved and loaded at any time (`Codec.Operation`). An operation that fails leaves the codec as it was
(`Operation.codec_eq_of_error`), and so does every operation on a codec that is built
(`Operation.codec_eq_of_isBuilt`).

The main statement collects what is true after any operations, in any order, with any failures
among them: which codecs are built and with which tables, which operations succeed and what they
do then, and that nothing changes any more once a codec is built (`Codec.lifecycle_isOrderly`).
-/

set_option autoImplicit false
set_option relaxedAutoImplicit false

namespace HuffmanCoding.Codec

variable {S : Type} [Symbol S]

/-! ### Training -/

/-- The ways to change the counts of a codec. -/
inductive TrainingStep (S : Type) [Symbol S] where
  | one (symbol : S)
  | times (symbol : S) (occurrences : Weight)
  | all (symbols : List S)
  | merge (frequencies : Frequencies S)
  | forget (cutoff : Weight)

namespace TrainingStep

def change : TrainingStep S → Frequencies S → Frequencies S
  | one symbol, frequencies => frequencies.add symbol 1
  | times symbol occurrences, frequencies => frequencies.add symbol occurrences
  | all symbols, frequencies => frequencies.addAll symbols
  | merge others, frequencies => frequencies.merge others
  | forget cutoff, frequencies => frequencies.keepAtLeast cutoff

def update : TrainingStep S → Update (Codec S) Unit
  | one symbol => Codec.train symbol
  | times symbol occurrences => Codec.trainTimes symbol occurrences
  | all symbols => Codec.trainAll symbols
  | merge others => Codec.merge others
  | forget cutoff => do
    let _ ← Codec.keepAtLeast cutoff

/-- Each step changes the counts of a codec that learns, and is refused by any other codec. -/
theorem run_update (step : TrainingStep S) (codec : Codec S) (log : WarningLog) :
    step.update.run ⟨codec, log⟩ = match codec.counts with
      | .ok frequencies =>
        .ok () ⟨{ codec with stage := .training (step.change frequencies) }, log⟩
      | .error error => .error error ⟨codec, log⟩ := by
  cases step with
  | one symbol => exact run_count _ codec log
  | times symbol occurrences => exact run_count _ codec log
  | all symbols => exact run_count _ codec log
  | merge others => exact run_count _ codec log
  | forget cutoff =>
    show (Codec.keepAtLeast cutoff >>= fun _ ↦ pure ()).run ⟨codec, log⟩ = _
    rw [EStateM.run_bind, run_keepAtLeast]
    cases codec.counts with
    | ok frequencies => rfl
    | error error => rfl

end TrainingStep

/-! ### Operations -/

/-- What can be done with a codec. -/
inductive Operation (S : Type) [Symbol S] where
  | count (step : TrainingStep S)
  | build
  | copy
  | listen
  | restore

def Operation.update : Operation S → Update (Codec S) Unit
  | count step => step.update
  | build => Codec.build
  | copy => pure ()
  | listen => modify fun monitored ↦ { monitored with log := [] }
  | restore => do
    let loaded ← Update.ofExcept (ofSaved (← Update.codec).saved).unheard
    Update.replace loaded

/-- The codec that operations leave behind one after the other, where those that fail are passed
over. -/
def after (codec : Codec S) (operations : List (Operation S)) : Codec S :=
  operations.foldl (fun codec operation ↦ (operation.update.perform codec).2.codec) codec

namespace Operation

variable (operation : Operation S) {codec : Codec S} (log : WarningLog)

/-- A restorable codec is not changed by saving and loading. -/
theorem run_restore (h : codec.IsRestorable) :
    (restore : Operation S).update.run ⟨codec, log⟩ = .ok () ⟨codec, log⟩ := by
  show (Update.ofExcept (ofSaved codec.saved).unheard >>= Update.replace).run ⟨codec, log⟩ = _
  rw [h.ofSaved_saved]
  rfl

/-- An operation that fails leaves the codec as it was. -/
theorem codec_eq_of_error {error : Error} {left : Monitored (Codec S)}
    (h : operation.update.run ⟨codec, log⟩ = .error error left) : left.codec = codec := by
  cases operation with
  | count step =>
    rw [update, step.run_update] at h
    cases hcounts : codec.counts with
    | ok frequencies =>
      rw [hcounts] at h
      cases h
    | error other =>
      rw [hcounts] at h
      cases h
      rfl
  | build =>
    rcases codec.run_build_cases log with ⟨tables, after, hrun, _⟩ | ⟨other, after, hrun⟩
    · rw [update, hrun] at h
      cases h
    · rw [update, hrun] at h
      cases h
      rfl
  | copy => cases h
  | listen => cases h
  | restore =>
    change (Update.ofExcept (ofSaved codec.saved).unheard >>= Update.replace).run ⟨codec, log⟩ = _
      at h
    cases hloaded : (ofSaved codec.saved).unheard with
    | ok loaded =>
      rw [hloaded] at h
      cases h
    | error other =>
      rw [hloaded] at h
      cases h
      rfl

/-- No operation changes a codec that is built. -/
theorem codec_eq_of_isBuilt (h : codec.IsRestorable) (hbuilt : codec.isBuilt = true) :
    (operation.update.perform codec).2.codec = codec := by
  have hfails {error : Error} {left : Monitored (Codec S)}
      (hrun : operation.update.run ⟨codec, []⟩ = .error error left) :
      (operation.update.perform codec).2.codec = codec := by
    unfold Update.perform
    rw [hrun]
    exact operation.codec_eq_of_error [] hrun
  cases operation with
  | count step =>
    have hrun := step.run_update codec []
    rw [codec.counts_eq, if_pos hbuilt] at hrun
    split_ifs at hrun with hstatic
    · exact hfails hrun
    · exact hfails hrun
  | build =>
    rcases codec.run_build_cases [] with ⟨tables, left, _, htraining, _⟩ | ⟨error, left, hrun⟩
    · obtain ⟨others, hothers⟩ := isBuilt_iff.mp hbuilt
      rw [htraining] at hothers
      cases hothers
    · exact hfails hrun
  | copy => rfl
  | listen => rfl
  | restore =>
    unfold Update.perform
    rw [run_restore [] h]

/-- Every operation leaves a restorable codec if it began with one. -/
theorem keeps_isRestorable : operation.update.Keeps IsRestorable := by
  have hlasting := isLasting_isRestorable (S := S)
  cases operation with
  | count step =>
    cases step with
    | one symbol => exact hlasting.keeps_count _
    | times symbol occurrences => exact hlasting.keeps_count _
    | all symbols => exact hlasting.keeps_count _
    | merge others => exact hlasting.keeps_count _
    | forget cutoff => exact (hlasting.keeps_keepAtLeast cutoff).bind fun _ ↦ Update.keeps_pure ()
  | build => exact hlasting.keeps_build
  | copy => exact Update.keeps_pure ()
  | listen => exact fun _ h ↦ h
  | restore =>
    rintro ⟨codec, log⟩ h
    rw [run_restore log h]
    exact h

end Operation

/-! ### Sequences of operations -/

/-- A codec is restorable after any operations. -/
theorem IsRestorable.after {codec : Codec S} (h : codec.IsRestorable)
    (operations : List (Operation S)) : (codec.after operations).IsRestorable := by
  induction operations generalizing codec with
  | nil => exact h
  | cons operation operations ih => exact ih (operation.keeps_isRestorable.perform h)

/-- A codec that is built is the same after any operations. -/
theorem IsRestorable.after_eq {codec : Codec S} (h : codec.IsRestorable)
    (hbuilt : codec.isBuilt = true) (operations : List (Operation S)) :
    codec.after operations = codec := by
  induction operations with
  | nil => rfl
  | cons operation operations ih =>
    show ((operation.update.perform codec).2.codec).after operations = codec
    rw [operation.codec_eq_of_isBuilt h hbuilt]
    exact ih

/-- What is true of a codec at any time of its life: it has the tables of its counts or was made to
learn, its counts change as long as it learns, nothing changes a codec that is built, and an
operation that fails changes nothing. -/
structure IsOrderly (codec : Codec S) : Prop where
  isBuilt : codec.isTrainable = false → codec.isBuilt = true
  tables_eq : ∀ tables, codec.stage = .built tables →
    (Tables.build codec.frequencies codec.config).unheard = .ok tables
  run_training : ∀ (step : TrainingStep S) (log : WarningLog), step.update.run ⟨codec, log⟩ =
    if codec.isTrainable = false then
      .error (.unsupported (.trainingStatic (Symbol.typeName S))) ⟨codec, log⟩
    else if codec.isBuilt = true then .error .alreadyBuilt ⟨codec, log⟩
    else .ok () ⟨{ codec with stage := .training (step.change codec.frequencies) }, log⟩
  exists_run_build_iff : ∀ (later : Codec S) (log : WarningLog),
    (∃ left, build.run ⟨codec, log⟩ = .ok () ⟨later, left⟩) ↔
      codec.isBuilt = false ∧ ∃ tables, later = { codec with stage := .built tables } ∧
        (Tables.build codec.frequencies codec.config).unheard = .ok tables
  after_eq : codec.isBuilt = true → ∀ operations, codec.after operations = codec
  codec_eq_of_error : ∀ (operation : Operation S) (log : WarningLog) (error : Error)
    (left : Monitored (Codec S)), operation.update.run ⟨codec, log⟩ = .error error left →
      left.codec = codec

theorem IsRestorable.isOrderly {codec : Codec S} (h : codec.IsRestorable) : codec.IsOrderly where
  isBuilt := by
    intro hstatic
    rw [isBuilt_iff]
    cases hstage : codec.stage with
    | training frequencies =>
      rw [h.isTrainable frequencies hstage] at hstatic
      cases hstatic
    | built tables => exact ⟨tables, rfl⟩
  tables_eq := h.isSound
  run_training := by
    intro step log
    rw [step.run_update, counts_eq]
    split_ifs
    · rfl
    · rfl
    · rfl
  exists_run_build_iff := fun _ log ↦ Codec.exists_run_build_iff log
  after_eq := h.after_eq
  codec_eq_of_error := fun operation log _ _ hrun ↦ operation.codec_eq_of_error log hrun

/-- Whatever is done with a codec that learns, was made from given counts or was loaded, in any
order and with any failures, it is orderly: it has tables if it was not made to learn, its tables
are those of its counts, it can be trained if it was made to learn and is not built, it can be built
if it is not and its counts have tables, it is the same for ever once it is built, and operations
that fail do not change it. -/
theorem lifecycle_isOrderly (codec : Codec S) (h : codec.Reachable)
    (operations : List (Operation S)) : (codec.after operations).IsOrderly :=
  ((isLasting_isRestorable.of_reachable h).after operations).isOrderly

/-- A codec that has counted three letters, forgotten one of them, and was copied and loaded, has
not been built and is orderly. One that was made from counts is the same after all that. -/
theorem lifecycle_isOrderly_of_letters :
    ∃ learned made : Codec Char, Reachable made ∧
      learned = after (trainable .standard)
        [.count (.all ['a', 'b', 'b']), .count (.forget 2), .copy, .listen, .restore] ∧
      learned.isBuilt = false ∧ learned.frequencies.toList = [('b', 2)] ∧ learned.IsOrderly ∧
      made.isBuilt = true ∧
      made.after [.count (.all ['a', 'b', 'b']), .build, .restore] = made := by
  obtain ⟨made, hmade⟩ := (exists_ofFrequencies_iff
    ((Frequencies.empty.add 'a' 1).add 'b' 2) .strict).mpr
      ⟨by decide, by decide +kernel, by decide +kernel⟩
  have hreachable : Reachable made := .ofFrequencies hmade
  have hbuilt := (hasOwnTables_of_ofFrequencies hmade).1.isBuilt
  exact ⟨_, made, hreachable, rfl, rfl, by decide +kernel,
    lifecycle_isOrderly _ (.trainable _) _, hbuilt,
    (lifecycle_isOrderly made hreachable []).after_eq hbuilt _⟩

end HuffmanCoding.Codec
