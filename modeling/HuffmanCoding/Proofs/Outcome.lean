import HuffmanCoding.Error
import Mathlib.Data.List.Forall2

/-!
# Outcomes

A computation that can fail goes on only from a value (`bind_eq_ok_iff`). Applied to the items of a
list, it yields one value for each of them (`mapM_eq_ok_iff`), or the error of the first item for
which it fails (`exists_of_mapM_eq_error`).
-/

set_option autoImplicit false
set_option relaxedAutoImplicit false

namespace HuffmanCoding.Outcome

variable {α β : Type}

/-- Two computations yield a value if the first one does and the second one does from there. -/
theorem bind_eq_ok_iff {first : Except Error α} {next : α → Except Error β} {result : β} :
    first >>= next = .ok result ↔ ∃ value, first = .ok value ∧ next value = .ok result := by
  cases first with
  | error error =>
    refine ⟨fun h ↦ (by cases h), ?_⟩
    rintro ⟨value, hvalue, _⟩
    cases hvalue
  | ok value =>
    refine ⟨fun h ↦ ⟨value, rfl, h⟩, ?_⟩
    rintro ⟨other, hother, h⟩
    cases hother
    exact h

/-- Two computations fail if the first one does, or the second one from its value. -/
theorem bind_eq_error_iff {first : Except Error α} {next : α → Except Error β} {error : Error} :
    first >>= next = .error error ↔
      first = .error error ∨ ∃ value, first = .ok value ∧ next value = .error error := by
  cases first with
  | error other =>
    refine ⟨fun h ↦ by cases h; exact Or.inl rfl, ?_⟩
    rintro (h | ⟨value, hvalue, _⟩)
    · cases h
      rfl
    · cases hvalue
  | ok value =>
    refine ⟨fun h ↦ Or.inr ⟨value, rfl, h⟩, ?_⟩
    rintro (h | ⟨other, hother, h⟩)
    · cases h
    · cases hother
      exact h

/-- What is made of the value of a computation is there if the value is. -/
theorem map_eq_ok_iff {outcome : Except Error α} {change : α → β} {result : β} :
    outcome.map change = .ok result ↔ ∃ value, outcome = .ok value ∧ change value = result := by
  cases outcome with
  | ok value => simp [Except.map]
  | error error => simp [Except.map]

/-- A computation either yields a value or fails. -/
theorem ok_or_error (outcome : Except Error α) :
    (∃ value, outcome = .ok value) ∨ ∃ error, outcome = .error error := by
  cases outcome with
  | ok value => exact Or.inl ⟨value, rfl⟩
  | error error => exact Or.inr ⟨error, rfl⟩

/-- A computation fails if it does not yield a value. -/
theorem exists_error_iff {outcome : Except Error α} :
    (∃ error, outcome = .error error) ↔ ¬ ∃ value, outcome = .ok value := by
  cases outcome with
  | ok value => simp
  | error error => simp

/-! ### The items of a list -/

variable {compute : α → Except Error β}

/-- A list of items yields a list of the values that they yield. -/
theorem mapM_eq_ok_iff {items : List α} {values : List β} :
    items.mapM compute = .ok values ↔
      List.Forall₂ (fun item value ↦ compute item = .ok value) items values := by
  induction items generalizing values with
  | nil =>
    rw [List.mapM_nil, List.forall₂_nil_left_iff]
    exact ⟨fun h ↦ (Except.ok.inj h).symm, fun h ↦ h ▸ rfl⟩
  | cons item items ih =>
    rw [List.mapM_cons, bind_eq_ok_iff, List.forall₂_cons_left_iff]
    constructor
    · rintro ⟨value, hvalue, hrest⟩
      obtain ⟨others, hothers, hpure⟩ := bind_eq_ok_iff.mp hrest
      exact ⟨value, others, hvalue, ih.mp hothers, (Except.ok.inj hpure).symm⟩
    · rintro ⟨value, others, hvalue, hothers, rfl⟩
      exact ⟨value, hvalue, bind_eq_ok_iff.mpr ⟨others, ih.mpr hothers, rfl⟩⟩

/-- A list of items yields values if each of its items does. -/
theorem exists_mapM_eq_ok_iff {items : List α} :
    (∃ values, items.mapM compute = .ok values) ↔
      ∀ item ∈ items, ∃ value, compute item = .ok value := by
  induction items with
  | nil => exact ⟨fun _ item hitem ↦ (by cases hitem), fun _ ↦ ⟨[], rfl⟩⟩
  | cons item items ih =>
    rw [List.forall_mem_cons, ← ih]
    constructor
    · rintro ⟨values, h⟩
      rw [List.mapM_cons, bind_eq_ok_iff] at h
      obtain ⟨value, hvalue, hrest⟩ := h
      obtain ⟨others, hothers, _⟩ := bind_eq_ok_iff.mp hrest
      exact ⟨⟨value, hvalue⟩, others, hothers⟩
    · rintro ⟨⟨value, hvalue⟩, others, hothers⟩
      refine ⟨value :: others, ?_⟩
      rw [List.mapM_cons, hvalue, hothers]
      rfl

/-- A list of items fails with the error of the first item that fails. -/
theorem exists_of_mapM_eq_error {items : List α} {error : Error}
    (h : items.mapM compute = .error error) :
    ∃ before item after, items = before ++ item :: after ∧
      (∀ other ∈ before, ∃ value, compute other = .ok value) ∧ compute item = .error error := by
  induction items with
  | nil => cases h
  | cons item items ih =>
    rw [List.mapM_cons, bind_eq_error_iff] at h
    rcases h with hitem | ⟨value, hvalue, hrest⟩
    · exact ⟨[], item, items, rfl, by simp, hitem⟩
    · rcases bind_eq_error_iff.mp hrest with herror | ⟨others, _, hpure⟩
      · obtain ⟨before, failing, after, rfl, hbefore, hfailing⟩ := ih herror
        refine ⟨item :: before, failing, after, rfl, ?_, hfailing⟩
        rw [List.forall_mem_cons]
        exact ⟨⟨value, hvalue⟩, hbefore⟩
      · cases hpure

end HuffmanCoding.Outcome
