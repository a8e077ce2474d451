import Mathlib

/-! Ordered lists: how many entries lie on each side of the one at a position of the sorted order,
and
lists that are ordered by a comparison which does not tell all members apart. -/

namespace Etiam

namespace OrderStatistic

variable {α : Type} (r : α → α → Prop) [DecidableRel r] [Std.Total r] [IsTrans α r]

/-- From a position on, the sorted list holds entries that are not before the one there. -/
theorem le_countP {xs : List α} {i : ℕ} {v : α} (entry : (xs.insertionSort r)[i]? = some v) :
    xs.length - i ≤ xs.countP (r v ·) := by
  obtain ⟨inside, rfl⟩ := List.getElem?_eq_some_iff.mp entry
  have sorted := List.pairwise_iff_getElem.mp (List.pairwise_insertionSort r xs)
  -- Counting goes over the sorted list, where the entries in question stand together.
  rw [← (List.perm_insertionSort r xs).countP_eq, ← (List.perm_insertionSort r xs).length_eq]
  have behind : ((xs.insertionSort r).drop i).countP (r (xs.insertionSort r)[i] ·) =
      ((xs.insertionSort r).drop i).length := by
    refine List.countP_eq_length.mpr fun x member => ?_
    obtain ⟨j, bound, rfl⟩ := List.getElem_of_mem member
    rw [List.length_drop] at bound
    rw [List.getElem_drop, decide_eq_true_eq]
    rcases j with _ | j
    · exact (Std.Total.total _ _).elim id id
    · exact sorted i (i + (j + 1)) inside (by omega) (by omega)
  calc (xs.insertionSort r).length - i
      = ((xs.insertionSort r).drop i).countP (r (xs.insertionSort r)[i] ·) := by
        rw [behind, List.length_drop]
    _ ≤ (xs.insertionSort r).countP (r (xs.insertionSort r)[i] ·) :=
        (List.drop_sublist i _).countP_le

/-- Of a value beyond the entry at a position, fewer entries lie on the far side. -/
theorem countP_lt {xs : List α} {i : ℕ} {v w : α} (entry : (xs.insertionSort r)[i]? = some v)
    (beyond : ¬ r w v) : xs.countP (r w ·) < xs.length - i := by
  obtain ⟨inside, rfl⟩ := List.getElem?_eq_some_iff.mp entry
  have sorted := List.pairwise_iff_getElem.mp (List.pairwise_insertionSort r xs)
  rw [← (List.perm_insertionSort r xs).countP_eq, ← (List.perm_insertionSort r xs).length_eq]
  -- Up to the position there are none, and at most all that follow it.
  have before : ((xs.insertionSort r).take (i + 1)).countP (r w ·) = 0 := by
    refine List.countP_eq_zero.mpr fun x member reached => ?_
    obtain ⟨j, bound, rfl⟩ := List.getElem_of_mem member
    rw [List.length_take] at bound
    rw [List.getElem_take, decide_eq_true_eq] at reached
    rcases Nat.lt_or_eq_of_le (Nat.le_of_lt_succ (Nat.lt_of_lt_of_le bound (Nat.min_le_left _ _)))
      with earlier | same
    · exact beyond (IsTrans.trans _ _ _ reached (sorted j i (by omega) inside earlier))
    · subst same
      exact beyond reached
  have after := List.countP_le_length (p := (r w ·)) (l := (xs.insertionSort r).drop (i + 1))
  rw [List.length_drop] at after
  calc (xs.insertionSort r).countP (r w ·)
      = ((xs.insertionSort r).take (i + 1)).countP (r w ·) +
          ((xs.insertionSort r).drop (i + 1)).countP (r w ·) := by
        rw [← List.countP_append, List.take_append_drop]
    _ < (xs.insertionSort r).length - i := by
        rw [before]
        omega

end OrderStatistic

/-- A comparison whose incomparable members form levels. -/
structure WeakOrder {α : Type*} (less : α → α → Bool) : Prop where
  asymm : ∀ {x y}, less x y = true → less y x = false
  below : ∀ {x y z}, less x y = true → less z y = false → less x z = true

/-- No member of the list comes before one that it should follow. -/
def Ordered {α : Type*} (less : α → α → Bool) (l : List α) : Prop :=
  l.Pairwise fun x y => less y x = false

namespace Ordered

variable {α : Type*} {less less' : α → α → Bool} {l before after : List α} {v : α}

theorem sublist {l' : List α} (ordered : Ordered less l) (fewer : l'.Sublist l) :
    Ordered less l' :=
  List.Pairwise.sublist fewer ordered

theorem congr (ordered : Ordered less l) (same : ∀ x ∈ l, ∀ y ∈ l, less' x y = less x y) :
    Ordered less' l := by
  refine ordered.imp_of_mem ?_
  intro x y left right kept
  rw [same y right x left]
  exact kept

/-- An ordered list is split by the comparison with any value. -/
theorem exists_split (weak : WeakOrder less) (ordered : Ordered less l) (v : α) :
    ∃ before after, l = before ++ after ∧ (∀ x ∈ before, less v x = false) ∧
      ∀ x ∈ after, less v x = true := by
  induction l with
  | nil => exact ⟨[], [], rfl, by simp, by simp⟩
  | cons x rest ih =>
    obtain ⟨first, others⟩ := List.pairwise_cons.mp ordered
    cases smaller : less v x with
    | true =>
      -- All that follows is not below the first member, so it is above the value as well.
      refine ⟨[], x :: rest, rfl, by simp, ?_⟩
      intro y member
      obtain rfl | later := List.mem_cons.mp member
      · exact smaller
      · exact weak.below smaller (first y later)
    | false =>
      obtain ⟨before, after, rfl, left, right⟩ := ih others
      refine ⟨x :: before, after, rfl, ?_, right⟩
      intro y member
      obtain rfl | later := List.mem_cons.mp member
      · exact smaller
      · exact left y later

theorem insert (weak : WeakOrder less) (ordered : Ordered less (before ++ after))
    (left : ∀ x ∈ before, less v x = false) (right : ∀ x ∈ after, less v x = true) :
    Ordered less (before ++ v :: after) := by
  obtain ⟨front, back, across⟩ := List.pairwise_append.mp ordered
  refine List.pairwise_append.mpr ⟨front, List.pairwise_cons.mpr ⟨?_, back⟩, ?_⟩
  · intro y member
    exact weak.asymm (right y member)
  · intro x earlier y member
    obtain rfl | later := List.mem_cons.mp member
    · exact left x earlier
    · exact across x earlier y later

end Ordered

end Etiam
