import Mathlib

/-! Lists whose members are told apart by a key: searching for a key and taking a member out. -/

namespace Etiam

namespace Keyed

/-- What is left of a list from which some members were taken are those with other keys. -/
theorem eq_filter_of_perm {α κ : Type*} [DecidableEq κ] {key : α → κ} {taken rest l : List α}
    (perm : (taken ++ rest).Perm l) (sub : rest.Sublist l) (distinct : (l.map key).Nodup) :
    rest = l.filter fun x => key x ∉ taken.map key := by
  -- What was taken does not pass the filter and what is left does, so the lengths agree.
  rw [← (perm.map key).nodup_iff, List.map_append, List.nodup_append] at distinct
  have passes : (rest.filter fun x => key x ∉ taken.map key) = rest := by
    rw [List.filter_eq_self]
    intro x stays
    rw [decide_eq_true_eq]
    intro named
    exact distinct.2.2 _ named _ (List.mem_map_of_mem stays) rfl
  have stopped : (taken.filter fun x => key x ∉ taken.map key) = [] := by
    rw [List.filter_eq_nil_iff]
    intro x member
    simpa using ⟨x, member, rfl⟩
  have shorter := sub.filter fun x => key x ∉ taken.map key
  rw [passes] at shorter
  apply shorter.eq_of_length
  have count := (perm.filter fun x => key x ∉ taken.map key).length_eq
  rw [List.filter_append, stopped, passes, List.nil_append] at count
  exact count

/-- A new member with a key of its own joins members that are told apart. -/
theorem nodup_of_perm_cons {α κ : Type*} {key : α → κ} {l rest : List α} {v : α}
    (perm : l.Perm (v :: rest)) (other : ∀ x ∈ rest, key x ≠ key v)
    (distinct : (rest.map key).Nodup) : (l.map key).Nodup := by
  rw [(perm.map key).nodup_iff, List.map_cons, List.nodup_cons]
  refine ⟨fun named => ?_, distinct⟩
  obtain ⟨x, present, same⟩ := List.mem_map.mp named
  exact other x present same

/-- Without one of them, members that are told apart still are, also from the one taken out. -/
theorem nodup_rest {α κ : Type*} {key : α → κ} {l rest : List α} {v : α}
    (perm : l.Perm (v :: rest)) (distinct : (l.map key).Nodup) :
    (∀ x ∈ rest, key x ≠ key v) ∧ (rest.map key).Nodup := by
  rw [(perm.map key).nodup_iff, List.map_cons, List.nodup_cons] at distinct
  exact ⟨fun x present same => distinct.1 (same ▸ List.mem_map_of_mem present), distinct.2⟩

variable {α κ : Type*} [BEq κ] [LawfulBEq κ] {key : α → κ} {l : List α} {k : κ} {v : α}

/-- What is found is a member with the key. -/
theorem mem_of_find? (found : l.find? (fun x => key x == k) = some v) : v ∈ l ∧ key v = k := by
  have named := List.find?_some found
  exact ⟨List.mem_of_find?_eq_some found, beq_iff_eq.mp named⟩

/-- Nothing is found where no member has the key. -/
theorem find?_eq_none : l.find? (fun x => key x == k) = none ↔ ∀ x ∈ l, key x ≠ k := by
  simp [List.find?_eq_none]

/-- A member is found by its key. -/
theorem find?_eq_some (distinct : (l.map key).Nodup) (member : v ∈ l) :
    l.find? (fun x => key x == key v) = some v := by
  cases found : l.find? (fun x => key x == key v) with
  | none => exact absurd rfl (find?_eq_none.mp found v member)
  | some w =>
    obtain ⟨present, named⟩ := mem_of_find? found
    rw [List.inj_on_of_nodup_map distinct present member named]

/-- A list is one of its members and those with other keys. -/
theorem perm_cons_filter (distinct : (l.map key).Nodup) (member : v ∈ l) :
    l.Perm (v :: l.filter fun x => key x != key v) := by
  have nodup : l.Nodup := List.Nodup.of_map key distinct
  have others : (v :: l.filter fun x => key x != key v).Nodup := by
    rw [List.nodup_cons]
    exact ⟨by simp, nodup.filter _⟩
  rw [List.perm_ext_iff_of_nodup nodup others]
  intro x
  constructor
  · intro present
    by_cases same : key x = key v
    · rw [List.inj_on_of_nodup_map distinct present member same]
      exact List.mem_cons_self
    · exact List.mem_cons_of_mem v (List.mem_filter.mpr ⟨present, by simpa using same⟩)
  · intro present
    obtain rfl | kept := List.mem_cons.mp present
    · exact member
    · exact (List.mem_filter.mp kept).1

/-- Taking a member out by one key or by another comes to the same. -/
theorem filter_key_congr {κ' : Type*} [BEq κ'] [LawfulBEq κ'] {key' : α → κ'}
    (distinct : (l.map key).Nodup) (distinct' : (l.map key').Nodup) (member : v ∈ l) :
    (l.filter fun x => key x != key v) = l.filter fun x => key' x != key' v := by
  apply List.filter_congr
  intro x present
  have iff : key x = key v ↔ key' x = key' v := by
    constructor
    · intro same
      rw [List.inj_on_of_nodup_map distinct present member same]
    · intro same
      rw [List.inj_on_of_nodup_map distinct' present member same]
  rw [Bool.eq_iff_iff]
  simpa using not_congr iff

end Keyed

end Etiam
