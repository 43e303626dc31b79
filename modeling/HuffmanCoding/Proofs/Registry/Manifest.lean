import HuffmanCoding.Proofs.Registry.Consistent
import HuffmanCoding.Symbol

/-!
# Published identifiers are honoured

A registry publishes the names and the identifiers of its types group by group. It honours a list of
published rows exactly if the rows of each group, taken by themselves, begin with what the group of
this name publishes now, whatever the order in which rows of different groups stand
(`Registry.verify_eq_ok_iff`). A registry in order publishes each of its types once
(`Registry.IsConsistent.manifest_lists`) and honours what it publishes itself
(`Registry.IsConsistent.verify_manifest`).
-/

set_option autoImplicit false
set_option relaxedAutoImplicit false

namespace HuffmanCoding

variable {κ : Type} [TypeKeys κ]

def TypeGroup.row (group : TypeGroup κ) (type : RegisteredType κ) : PublishedType :=
  ⟨group.name, type.typeName, type.identifier⟩

def TypeGroup.manifest (group : TypeGroup κ) : List PublishedType :=
  group.types.map group.row

namespace Registry

/-- What the group with a name publishes, which is nothing if there is no such group. -/
def manifestOf (registry : Registry κ) (name : String) : List PublishedType :=
  (registry.group? name).elim [] TypeGroup.manifest

def rowsOf (published : List PublishedType) (name : String) : List PublishedType :=
  published.filter (·.group = name)

variable {registry : Registry κ}

theorem rowsOf_cons_self (row : PublishedType) (rest : List PublishedType) :
    rowsOf (row :: rest) row.group = row :: rowsOf rest row.group :=
  List.filter_cons_of_pos (decide_eq_true rfl)

theorem rowsOf_cons_of_ne {row : PublishedType} {name : String} (h : row.group ≠ name)
    (rest : List PublishedType) : rowsOf (row :: rest) name = rowsOf rest name :=
  List.filter_cons_of_neg (by simpa using h)

/-! ### Checking a list row by row -/

/-- A list begins behind some place with a row and others if the row stands there and the others
begin behind it. -/
theorem cons_prefix_drop_iff {α : Type} {row : α} {rest rows : List α} {place : ℕ} :
    row :: rest <+: rows.drop place ↔
      rows[place]? = some row ∧ rest <+: rows.drop (place + 1) := by
  rw [← List.head?_drop, ← List.tail_drop]
  cases rows.drop place with
  | nil => simp
  | cons first others => rw [List.cons_prefix_cons, List.head?_cons, List.tail_cons,
      Option.some.injEq, eq_comm]

/-- A row is honoured at a place of its group if the group publishes the row there. -/
theorem getElem?_manifestOf_iff (row : PublishedType) (place : ℕ) :
    (((registry.group? row.group).bind (·.types[place]?)).any fun type ↦
        type.typeName = row.typeName ∧ type.identifier = row.identifier) = true ↔
      (registry.manifestOf row.group)[place]? = some row := by
  obtain ⟨name, typeName, identifier⟩ := row
  unfold manifestOf
  cases hgroup : registry.group? name with
  | none => simp
  | some group =>
    have hname : group.name = name := by simpa using List.find?_some hgroup
    rw [Option.bind_some, Option.elim_some, TypeGroup.manifest, List.getElem?_map]
    cases group.types[place]? with
    | none => simp
    | some type => simp [TypeGroup.row, hname]

/-- A row is honoured before the rows behind it are looked at. -/
theorem verifyAfter_cons (registry : Registry κ) (passed : List String) (row : PublishedType)
    (rest : List PublishedType) : registry.verifyAfter passed (row :: rest) =
      if ((registry.group? row.group).bind (·.types[passed.count row.group]?)).any fun type ↦
        type.typeName = row.typeName ∧ type.identifier = row.identifier then
          registry.verifyAfter (row.group :: passed) rest
      else .error (.identifierMoved row.typeName row.identifier.toNat
        ((registry.types.find? (·.typeName = row.typeName)).map (·.identifier.toNat))) := rfl

/-- The rest of a list is honoured if the rows of each group begin where those in front of them
end. -/
theorem verifyAfter_eq_ok_iff (passed : List String) (published : List PublishedType) :
    registry.verifyAfter passed published = .ok () ↔
      ∀ name, rowsOf published name <+: (registry.manifestOf name).drop (passed.count name) := by
  induction published generalizing passed with
  | nil => exact ⟨fun _ _ ↦ List.nil_prefix, fun _ ↦ rfl⟩
  | cons row rest ih =>
    rw [verifyAfter_cons]
    by_cases hfound : (registry.manifestOf row.group)[passed.count row.group]? = some row
    · rw [if_pos ((getElem?_manifestOf_iff row _).mpr hfound), ih]
      refine forall_congr' fun name ↦ ?_
      by_cases hname : row.group = name
      · subst hname
        rw [rowsOf_cons_self, List.count_cons_self, cons_prefix_drop_iff, and_iff_right hfound]
      · rw [rowsOf_cons_of_ne hname, List.count_cons_of_ne hname]
    · rw [if_neg (mt (getElem?_manifestOf_iff row _).mp hfound)]
      refine ⟨fun h ↦ (by cases h), fun h ↦ ?_⟩
      have hrow := h row.group
      rw [rowsOf_cons_self, cons_prefix_drop_iff] at hrow
      exact absurd hrow.1 hfound

/-- A registry honours a list exactly if the rows of each group begin what the group publishes. -/
theorem verify_eq_ok_iff (published : List PublishedType) :
    registry.verify published = .ok () ↔
      ∀ name, rowsOf published name <+: registry.manifestOf name :=
  verifyAfter_eq_ok_iff [] published

/-! ### What a registry publishes itself -/

/-- Group by group, the types are published in the order of their registration. -/
theorem map_manifest (registry : Registry κ) :
    registry.manifest.map (fun row ↦ (row.typeName, row.identifier)) =
      registry.types.map fun type ↦ (type.typeName, type.identifier) := by
  simp only [manifest, types, List.map_flatMap, List.map_map, Function.comp_def]

theorem mem_manifest_iff {row : PublishedType} :
    row ∈ registry.manifest ↔ ∃ group ∈ registry.groups, ∃ type ∈ group.types,
      group.row type = row := by
  rw [manifest, List.mem_flatMap]
  exact exists_congr fun group ↦ and_congr_right fun _ ↦ List.mem_map

/-- Among the rows of groups with different names, those with the name of a group are the rows of
this group. -/
theorem rowsOf_flatMap_manifest {groups : List (TypeGroup κ)}
    (h : (groups.map (·.name)).Nodup) (name : String) :
    rowsOf (groups.flatMap TypeGroup.manifest) name =
      (groups.find? (·.name = name)).elim [] TypeGroup.manifest := by
  induction groups with
  | nil => rfl
  | cons group groups ih =>
    rw [List.map_cons, List.nodup_cons] at h
    have hsplit : rowsOf ((group :: groups).flatMap TypeGroup.manifest) name =
        rowsOf group.manifest name ++ rowsOf (groups.flatMap TypeGroup.manifest) name := by
      rw [List.flatMap_cons]
      exact List.filter_append ..
    rw [hsplit, ih h.2]
    by_cases hname : group.name = name
    · have hown : rowsOf group.manifest name = group.manifest := by
        refine List.filter_eq_self.mpr fun row hrow ↦ ?_
        obtain ⟨type, _, rfl⟩ := List.mem_map.mp hrow
        exact decide_eq_true hname
      have hothers : groups.find? (·.name = name) = none := by
        refine List.find?_eq_none.mpr fun other hother ↦ ?_
        intro hsame
        refine h.1 (List.mem_map.mpr ⟨other, hother, ?_⟩)
        rw [hname]
        exact of_decide_eq_true hsame
      rw [hown, hothers, List.find?_cons_of_pos (by simpa using hname)]
      exact List.append_nil _
    · have hnone : rowsOf group.manifest name = [] := by
        refine List.filter_eq_nil_iff.mpr fun row hrow ↦ ?_
        obtain ⟨type, _, rfl⟩ := List.mem_map.mp hrow
        simp [TypeGroup.row, hname]
      rw [hnone, List.find?_cons_of_neg (by simpa using hname), List.nil_append]

variable [DecidableEq κ]

/-- A name leads to the group that has it. -/
theorem IsConsistent.group?_eq_some_iff (h : registry.IsConsistent) {name : String}
    {group : TypeGroup κ} :
    registry.group? name = some group ↔ group ∈ registry.groups ∧ group.name = name := by
  constructor
  · intro hgroup
    exact ⟨List.mem_of_find?_eq_some hgroup, by simpa using List.find?_some hgroup⟩
  · rintro ⟨hmem, hname⟩
    have hsome : (registry.group? name).isSome := by
      rw [group?, List.find?_isSome]
      exact ⟨group, hmem, by simpa using hname⟩
    obtain ⟨other, hother⟩ := Option.isSome_iff_exists.mp hsome
    have hsame : other.name = group.name := by
      rw [hname]
      simpa using List.find?_some hother
    rw [hother, List.inj_on_of_nodup_map h.nodup_names (List.mem_of_find?_eq_some hother) hmem
      hsame]

/-- Every registered type is published once and nothing else is: a row names a group and one of its
types, and its identifier is the one that leads to this type. -/
theorem IsConsistent.manifest_lists (h : registry.IsConsistent) :
    (∀ row, row ∈ registry.manifest ↔ ∃ group type, registry.group? row.group = some group ∧
      type ∈ group.types ∧ type.typeName = row.typeName ∧
        registry.typeWith? row.identifier = some type) ∧
    (registry.manifest.map (·.identifier)).Nodup ∧ registry.manifest.length = registry.size := by
  have hidentifiers : registry.manifest.map (·.identifier) = registry.types.map (·.identifier) := by
    have hpairs := congrArg (List.map Prod.snd) registry.map_manifest
    rwa [List.map_map, List.map_map] at hpairs
  refine ⟨fun row ↦ ?_, hidentifiers ▸ h.nodup_identifiers, ?_⟩
  · simp only [mem_manifest_iff, h.group?_eq_some_iff, h.typeWith?_eq_some_iff]
    constructor
    · rintro ⟨group, hgroup, type, htype, rfl⟩
      exact ⟨group, type, ⟨hgroup, rfl⟩, htype, rfl,
        List.mem_flatMap.mpr ⟨group, hgroup, htype⟩, rfl⟩
    · rintro ⟨group, type, ⟨hgroup, hname⟩, htype, htypeName, _, hidentifier⟩
      refine ⟨group, hgroup, type, htype, ?_⟩
      rw [TypeGroup.row, hname, htypeName, hidentifier]
  · have hlength := congrArg List.length hidentifiers
    rw [List.length_map, List.length_map] at hlength
    exact hlength.trans h.size_byKey.symm

/-- The published rows of a group are what the group publishes. -/
theorem IsConsistent.rowsOf_manifest (h : registry.IsConsistent) (name : String) :
    rowsOf registry.manifest name = registry.manifestOf name :=
  rowsOf_flatMap_manifest h.nodup_names name

/-- A registry honours what it publishes. -/
theorem IsConsistent.verify_manifest (h : registry.IsConsistent) :
    registry.verify registry.manifest = .ok () := by
  rw [verify_eq_ok_iff]
  intro name
  exact (h.rowsOf_manifest name).symm ▸ List.prefix_rfl

end Registry

end HuffmanCoding
