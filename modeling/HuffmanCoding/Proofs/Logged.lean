import HuffmanCoding.Warning

/-!
# What a computation yields

A computation that reports warnings only adds to the log (`Logged.OnlyAdds`): what it yields does
not depend on the warnings that were there before. So what a sequence of such computations yields,
when nobody hears the warnings, is what their results yield one after the other (`unheard_bind`).
-/

set_option autoImplicit false
set_option relaxedAutoImplicit false

namespace HuffmanCoding.Logged

variable {α β : Type}

/-- The outcome of a computation and the warnings that it adds do not depend on the log before. -/
def OnlyAdds (computation : Logged α) : Prop :=
  ∀ log, computation.run log = match computation.run [] with
    | .ok value added => .ok value (log ++ added)
    | .error error added => .error error (log ++ added)

/-! ### Computations that only add to the log -/

theorem OnlyAdds.pure (value : α) : (Pure.pure value : Logged α).OnlyAdds :=
  fun log ↦ by simp [EStateM.run_pure]

theorem OnlyAdds.throw (error : Error) : (throw error : Logged α).OnlyAdds :=
  fun log ↦ by
    show EStateM.Result.error error log = EStateM.Result.error error (log ++ [])
    rw [List.append_nil]

theorem OnlyAdds.ofExcept (result : Except Error α) : (ofExcept result).OnlyAdds := by
  cases result with
  | ok value => exact OnlyAdds.pure value
  | error error => exact OnlyAdds.throw error

theorem OnlyAdds.warn (warning : Warning) : (warn warning).OnlyAdds :=
  fun log ↦ by simp [Logged.warn, EStateM.run_modify]

theorem OnlyAdds.warnIf (condition : Bool) (warning : Warning) :
    (warnIf condition warning).OnlyAdds := by
  cases condition with
  | true => exact OnlyAdds.warn warning
  | false => exact OnlyAdds.pure ()

theorem OnlyAdds.bind {computation : Logged α} {next : α → Logged β}
    (hfirst : computation.OnlyAdds) (hnext : ∀ value, (next value).OnlyAdds) :
    (computation >>= next).OnlyAdds := by
  intro log
  rw [EStateM.run_bind, EStateM.run_bind, hfirst log]
  cases computation.run [] with
  | error error added => rfl
  | ok value added =>
    simp only
    rw [hnext value (log ++ added), hnext value added]
    cases (next value).run [] with
    | error error more => simp
    | ok result more => simp

/-- What a computation yields and which warnings it adds, whatever the log before. -/
theorem OnlyAdds.run_eq {computation : Logged α} (h : computation.OnlyAdds) (log : WarningLog) :
    computation.run log = match computation.listen with
      | (.ok value, added) => .ok value (log ++ added)
      | (.error error, added) => .error error (log ++ added) := by
  rw [h log, listen]
  cases computation.run [] with
  | error error added => rfl
  | ok value added => rfl

/-- What a computation yields does not depend on the log before. -/
theorem OnlyAdds.exists_run_eq_ok_iff {computation : Logged α} (h : computation.OnlyAdds)
    {value : α} (log : WarningLog) :
    (∃ left, computation.run log = .ok value left) ↔ computation.unheard = .ok value := by
  rw [h.run_eq, unheard]
  obtain ⟨outcome, added⟩ := computation.listen
  cases outcome with
  | ok other => simp
  | error error => simp

theorem OnlyAdds.unheard_eq_ok {computation : Logged α} (h : computation.OnlyAdds) {value : α}
    {log left : WarningLog} (hrun : computation.run log = .ok value left) :
    computation.unheard = .ok value :=
  (h.exists_run_eq_ok_iff log).mp ⟨left, hrun⟩

/-! ### What is yielded -/

@[simp] theorem unheard_pure (value : α) : (pure value : Logged α).unheard = .ok value := rfl

@[simp] theorem unheard_throw (error : Error) : (throw error : Logged α).unheard = .error error :=
  rfl

@[simp] theorem unheard_warn (warning : Warning) : (warn warning).unheard = .ok () := rfl

@[simp] theorem unheard_warnIf (condition : Bool) (warning : Warning) :
    (warnIf condition warning).unheard = .ok () := by
  cases condition <;> rfl

@[simp] theorem unheard_ofExcept (result : Except Error α) :
    (ofExcept result).unheard = result := by
  cases result <;> rfl

/-- What two computations yield one after the other. -/
theorem unheard_bind {computation : Logged α} {next : α → Logged β}
    (hnext : ∀ value, (next value).OnlyAdds) :
    (computation >>= next).unheard = computation.unheard >>= fun value ↦ (next value).unheard := by
  rw [unheard, unheard, listen, listen, EStateM.run_bind]
  cases computation.run [] with
  | error error added => rfl
  | ok value added =>
    simp only
    rw [hnext value added]
    change _ = (next value).unheard
    rw [unheard, listen]
    cases (next value).run [] <;> rfl

/-- A warning does not change what is yielded after it. -/
theorem unheard_warnIf_bind (condition : Bool) (warning : Warning) {next : Logged α}
    (hnext : next.OnlyAdds) :
    (warnIf condition warning >>= fun _ ↦ next).unheard = next.unheard := by
  rw [unheard_bind fun _ ↦ hnext, unheard_warnIf]
  rfl

end HuffmanCoding.Logged
