import Etiam.Library.Keyed

/-! Entries with a parent: lists in which parents come first, and taking out of a pool all that
descends from given entries. -/

namespace Etiam

namespace Descent

variable {α κ : Type*}

section Anchored

/-- The parent of every entry, given after its own name, is at hand or comes earlier in the list. -/
def Anchored (base : κ → Prop) : List (κ × κ) → Prop
  | [] => True
  | entry :: rest => base entry.2 ∧ Anchored (fun k => base k ∨ k = entry.1) rest

variable {base base' : κ → Prop} {l m : List (κ × κ)}

theorem Anchored.mono (anchored : Anchored base l) (more : ∀ k, base k → base' k) :
    Anchored base' l := by
  induction l generalizing base base' with
  | nil => trivial
  | cons entry rest ih =>
    refine ⟨more _ anchored.1, ih anchored.2 ?_⟩
    intro k known
    exact known.imp (more k) id

theorem anchored_append : Anchored base (l ++ m) ↔
    Anchored base l ∧ Anchored (fun k => base k ∨ k ∈ l.map Prod.fst) m := by
  -- The base grows along the first list, and the second starts where it has grown to.
  induction l generalizing base with
  | nil => simp [Anchored]
  | cons entry rest ih =>
    simp only [List.cons_append, Anchored, ih, List.map_cons, List.mem_cons, or_assoc, and_assoc]

theorem Anchored.parent {entry : κ × κ} (anchored : Anchored base (l ++ entry :: m)) :
    base entry.2 ∨ entry.2 ∈ l.map Prod.fst :=
  (anchored_append.mp anchored).2.1

theorem Anchored.mem {entry : κ × κ} (anchored : Anchored base l) (member : entry ∈ l) :
    base entry.2 ∨ entry.2 ∈ l.map Prod.fst := by
  obtain ⟨before, after, rfl⟩ := List.append_of_mem member
  refine anchored.parent.imp_right fun earlier => ?_
  rw [List.map_append]
  exact List.mem_append_left _ earlier

theorem Anchored.filter {keep : κ × κ → Bool} (anchored : Anchored base l)
    (more : ∀ k, base k → base' k) (gone : ∀ entry ∈ l, keep entry = false → base' entry.1) :
    Anchored base' (l.filter keep) := by
  -- Along the list both bases grow: by an entry that stays, or by none if the entry goes.
  induction l generalizing base base' with
  | nil => trivial
  | cons entry rest ih =>
    cases kept : keep entry with
    | true =>
      rw [List.filter_cons_of_pos kept]
      refine ⟨more _ anchored.1, ih anchored.2 (fun k => Or.imp (more k) id) ?_⟩
      intro other later leaves
      exact Or.inl (gone other (List.mem_cons_of_mem entry later) leaves)
    | false =>
      rw [List.filter_cons_of_neg (by simp [kept])]
      refine ih anchored.2 ?_ fun other later => gone other (List.mem_cons_of_mem entry later)
      rintro k (known | rfl)
      · exact more k known
      · exact gone entry List.mem_cons_self kept

end Anchored

section Descend

variable [DecidableEq κ] (key parent : α → κ)

/-- Take the children of the first name in line out of a pool and put them in line, until no name
is left. What was taken comes with what stays. -/
def descend : ℕ → List κ → List α → List α × List α
  | 0, _, pool => ([], pool)
  | _, [], pool => ([], pool)
  | fuel + 1, k :: line, pool =>
    let children := pool.filter fun x => parent x = k
    let after := descend fuel (line ++ children.map key) (pool.filter fun x => parent x ≠ k)
    (children ++ after.1, after.2)

/-- A name with its parent. -/
def entry (x : α) : κ × κ := (key x, parent x)

variable {key parent} {fuel : ℕ} {line : List κ} {pool : List α}

theorem descend_nil : descend key parent fuel [] pool = ([], pool) := by
  cases fuel <;> rfl

theorem descend_eq_self {k : κ} (none : ∀ x ∈ pool, parent x ≠ k) :
    descend key parent fuel [k] pool = ([], pool) := by
  cases fuel with
  | zero => rfl
  | succ fuel =>
    have children : (pool.filter fun x => parent x = k) = [] := by
      simpa [List.filter_eq_nil_iff] using none
    have others : (pool.filter fun x => parent x ≠ k) = pool := by
      simpa [List.filter_eq_self] using none
    simp only [descend, children, others, List.map_nil, List.append_nil, descend_nil]

theorem descend_perm :
    ((descend key parent fuel line pool).1 ++ (descend key parent fuel line pool).2).Perm pool := by
  induction fuel generalizing line pool with
  | zero => exact List.Perm.refl pool
  | succ fuel ih =>
    cases line with
    | nil => exact List.Perm.refl pool
    | cons k line =>
      simp only [descend, List.append_assoc]
      refine (List.Perm.append_left _ ih).trans ?_
      simpa using List.filter_append_perm (fun x => decide (parent x = k)) pool

theorem descend_sublist : (descend key parent fuel line pool).2.Sublist pool := by
  induction fuel generalizing line pool with
  | zero => exact List.Sublist.refl pool
  | succ fuel ih =>
    cases line with
    | nil => exact List.Sublist.refl pool
    | cons k line => exact ih.trans List.filter_sublist

/-- What is taken comes after its parent, which is in line or was taken before. -/
theorem descend_anchored :
    Anchored (· ∈ line) ((descend key parent fuel line pool).1.map (entry key parent)) := by
  induction fuel generalizing line pool with
  | zero => trivial
  | succ fuel ih =>
    cases line with
    | nil => trivial
    | cons k line =>
      simp only [descend, List.map_append]
      rw [anchored_append]
      constructor
      · -- All of the first batch are children of the name at hand.
        generalize batch : (pool.filter fun x => parent x = k) = children
        have here : ∀ x ∈ children, parent x = k := by
          intro x member
          rw [← batch, List.mem_filter] at member
          exact of_decide_eq_true member.2
        clear batch ih
        have atHand : ∀ base : κ → Prop, base k →
            Anchored base (children.map (entry key parent)) := by
          induction children with
          | nil => exact fun _ _ => trivial
          | cons x rest ih =>
            intro base known
            refine ⟨?_, ih (fun y later => here y (List.mem_cons_of_mem x later)) _ (Or.inl known)⟩
            change base (parent x)
            rwa [here x List.mem_cons_self]
        exact atHand _ List.mem_cons_self
      · refine Anchored.mono ih ?_
        intro h queued
        obtain before | fresh := List.mem_append.mp queued
        · exact Or.inl (List.mem_cons_of_mem k before)
        · right
          simpa [entry, List.map_map, Function.comp_def] using fresh

/-- With enough fuel, nothing that stays has a parent that was in line or taken. -/
theorem descend_closed (enough : line.length + pool.length ≤ fuel) :
    ∀ x ∈ (descend key parent fuel line pool).2, parent x ∉ line ∧
      parent x ∉ (descend key parent fuel line pool).1.map key := by
  -- Each turn takes one name off the line, and moves as many into it as leave the pool.
  induction fuel generalizing line pool with
  | zero =>
    obtain ⟨rfl, rfl⟩ : line = [] ∧ pool = [] := by
      constructor
      · exact List.eq_nil_of_length_eq_zero (by omega)
      · exact List.eq_nil_of_length_eq_zero (by omega)
    simp [descend]
  | succ fuel ih =>
    cases line with
    | nil => simp [descend]
    | cons k line =>
      intro x stays
      have split := (List.filter_append_perm (fun x => decide (parent x = k)) pool).length_eq
      rw [List.length_append] at split
      have others : (pool.filter fun x => !decide (parent x = k)) =
          pool.filter fun x => parent x ≠ k := by simp
      rw [others] at split
      have room : (line ++ (pool.filter fun x => parent x = k).map key).length +
          (pool.filter fun x => parent x ≠ k).length ≤ fuel := by
        rw [List.length_append, List.length_map]
        rw [List.length_cons] at enough
        omega
      obtain ⟨unnamed, untaken⟩ := ih room x stays
      have other : parent x ≠ k := by
        have left : x ∈ pool.filter fun x => parent x ≠ k := descend_sublist.subset stays
        simpa using (List.mem_filter.mp left).2
      rw [List.mem_append, not_or] at unnamed
      refine ⟨?_, ?_⟩
      · rw [List.mem_cons, not_or]
        exact ⟨other, unnamed.1⟩
      · simp only [descend, List.map_append, List.mem_append, not_or]
        exact ⟨unnamed.2, untaken⟩

/-- Where names differ, what stays are the entries whose names were not taken. -/
theorem descend_rest (distinct : (pool.map key).Nodup) :
    (descend key parent fuel line pool).2 =
      pool.filter fun x => key x ∉ (descend key parent fuel line pool).1.map key :=
  Keyed.eq_filter_of_perm descend_perm descend_sublist distinct

end Descend

end Descent

end Etiam
