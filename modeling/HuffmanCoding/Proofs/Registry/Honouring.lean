import HuffmanCoding.Proofs.Registry.Building
import HuffmanCoding.Proofs.Registry.Manifest

/-!
# The first row that is not honoured

A published list is honoured if nothing but appending has happened to each of its groups: the rows
with the name of a group, wherever they stand in the list, are the first rows that the registry
publishes now under this name (`Registry.Honours`). A list that is not honoured has a first row at
which this fails (`Registry.IsFirstBreach`), and only one.

Holding a list against a registry goes through the rows once and counts the rows of each group. It
fails exactly for the lists that are not honoured, and what it names is the first row at which they
are not (`Registry.verify_isExact_of_calls`).
-/

set_option autoImplicit false
set_option relaxedAutoImplicit false

namespace HuffmanCoding.Registry

variable {κ : Type} [TypeKeys κ] {registry : Registry κ}

/-- The rows of each group begin what the registry publishes for that group. -/
def Honours (registry : Registry κ) (published : List PublishedType) : Prop :=
  ∀ name, rowsOf published name <+: rowsOf registry.manifest name

/-- The registry honours the rows in front of a row, but not this row, too. -/
structure IsFirstBreach (registry : Registry κ) (published before : List PublishedType)
    (row : PublishedType) : Prop where
  begins : before ++ [row] <+: published
  honoured : registry.Honours before
  breached : ¬ registry.Honours (before ++ [row])

/-- The fault of a row that is not honoured. It tells where the type is now, if it is registered. -/
def faultAt (registry : Registry κ) (row : PublishedType) : RegistrationFault :=
  .identifierMoved row.typeName row.identifier.toNat
    ((registry.types.find? (·.typeName = row.typeName)).map (·.identifier.toNat))

/-- The beginning of a list is honoured if the list is. -/
theorem Honours.of_prefix {published fewer : List PublishedType} (h : registry.Honours published)
    (hfewer : fewer <+: published) : registry.Honours fewer :=
  fun name ↦ (hfewer.filter _).trans (h name)

/-- Of two rows at which a list is not honoured any more, none comes after the other. -/
theorem IsFirstBreach.length_le {published before others : List PublishedType}
    {row other : PublishedType} (h : registry.IsFirstBreach published before row)
    (hother : registry.IsFirstBreach published others other) : others.length ≤ before.length := by
  by_contra hlt
  rw [Nat.not_le] at hlt
  have hothers : others <+: published := (List.prefix_append _ _).trans hother.begins
  have hearlier : before ++ [row] <+: others := by
    refine List.prefix_of_prefix_length_le h.begins hothers ?_
    rw [List.length_append, List.length_singleton]
    exact hlt
  exact h.breached (hother.honoured.of_prefix hearlier)

/-- There is only one first row at which a list is not honoured. -/
theorem IsFirstBreach.row_eq {published before others : List PublishedType}
    {row other : PublishedType} (h : registry.IsFirstBreach published before row)
    (hother : registry.IsFirstBreach published others other) : row = other := by
  have hlength : (before ++ [row]).length = (others ++ [other]).length := by
    rw [List.length_append, List.length_append,
      Nat.le_antisymm (hother.length_le h) (h.length_le hother)]
    rfl
  have hsame := (List.prefix_of_prefix_length_le h.begins hother.begins
    (Nat.le_of_eq hlength)).eq_of_length hlength
  exact List.singleton_inj.mp (List.append_inj_right' hsame rfl)

/-- A list that is refused is held to be right up to some row, and refused with that row. -/
theorem exists_of_verifyAfter_eq_error {passed : List String} {published : List PublishedType}
    {fault : RegistrationFault} (h : registry.verifyAfter passed published = .error fault) :
    ∃ before row after, published = before ++ row :: after ∧
      registry.verifyAfter passed before = .ok () ∧
      registry.verifyAfter passed (before ++ [row]) = .error fault ∧
      fault = registry.faultAt row := by
  induction published generalizing passed with
  | nil => cases h
  | cons row rest ih =>
    rw [verifyAfter_cons] at h
    by_cases hfound : (((registry.group? row.group).bind
        (·.types[passed.count row.group]?)).any fun type ↦
          type.typeName = row.typeName ∧ type.identifier = row.identifier) = true
    · rw [if_pos hfound] at h
      obtain ⟨before, last, after, rfl, hbefore, hlast, hfault⟩ := ih h
      refine ⟨row :: before, last, after, rfl, ?_, ?_, hfault⟩
      · rw [verifyAfter_cons, if_pos hfound, hbefore]
      · rw [List.cons_append, verifyAfter_cons, if_pos hfound, hlast]
    · rw [if_neg hfound] at h
      refine ⟨[], row, rest, rfl, rfl, ?_, (Except.error.inj h).symm⟩
      rw [List.nil_append, verifyAfter_cons, if_neg hfound]
      exact h

section Consistent

variable [DecidableEq κ]

/-- A list is held to be right exactly if it is honoured. -/
theorem IsConsistent.verify_eq_ok_iff_honours (h : registry.IsConsistent)
    (published : List PublishedType) :
    registry.verify published = .ok () ↔ registry.Honours published := by
  unfold Honours
  simp only [h.rowsOf_manifest]
  exact verify_eq_ok_iff published

/-- A list is refused with the first row at which it is not honoured. -/
theorem IsConsistent.verify_eq_error_iff (h : registry.IsConsistent)
    (published : List PublishedType) (fault : RegistrationFault) :
    registry.verify published = .error fault ↔
      ∃ before row, registry.IsFirstBreach published before row ∧ fault = registry.faultAt row := by
  have hbreach {fault : RegistrationFault} (hfault : registry.verify published = .error fault) :
      ∃ before row, registry.IsFirstBreach published before row ∧ fault = registry.faultAt row := by
    obtain ⟨before, row, after, rfl, hbefore, hrow, hmoved⟩ :=
      exists_of_verifyAfter_eq_error hfault
    refine ⟨before, row, ⟨?_, (h.verify_eq_ok_iff_honours before).mp hbefore, fun hhonours ↦ ?_⟩,
      hmoved⟩
    · rw [List.append_cons before row after]
      exact List.prefix_append _ _
    · have hok := (h.verify_eq_ok_iff_honours (before ++ [row])).mpr hhonours
      unfold verify at hok
      rw [hrow] at hok
      cases hok
  refine ⟨hbreach, ?_⟩
  rintro ⟨before, row, hfirst, rfl⟩
  cases hverify : registry.verify published with
  | ok value =>
    have hhonours := (h.verify_eq_ok_iff_honours published).mp hverify
    exact absurd (hhonours.of_prefix hfirst.begins) hfirst.breached
  | error fault =>
    obtain ⟨others, other, hother, rfl⟩ := hbreach hverify
    rw [hfirst.row_eq hother]

end Consistent

/-- Whatever calls have built a registry, it holds exactly those published lists to be right in
which the rows of each group, taken by themselves, are the first rows that it publishes for this
group, and it refuses any other list with the first row, in the order of the list, at which this
fails. -/
theorem verify_isExact_of_calls [DecidableEq κ] (calls : List (GroupCall κ))
    (published : List PublishedType) :
    let registry := leftBy ((calls.forM GroupCall.perform).run .empty)
    (registry.verify published = .ok () ↔ registry.Honours published) ∧
      ∀ fault, registry.verify published = .error fault ↔
        ∃ before row, registry.IsFirstBreach published before row ∧
          fault = registry.faultAt row := by
  have hconsistent := (Reached.empty.calls calls).isConsistent
  exact ⟨hconsistent.verify_eq_ok_iff_honours published,
    hconsistent.verify_eq_error_iff published⟩

end HuffmanCoding.Registry
