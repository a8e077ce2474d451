import Mathlib

/-! Maps of chunks of consecutively numbered items, and the finite maps that they stand for. -/

namespace Etiam

namespace Chunks

variable {α : Type*}

/-- The item with a number, in chunks that are given with the number of their first item. -/
def lookup : List (ℕ × List α) → ℕ → Option α
  | [], _ => none
  | (first, items) :: rest, n => (if first ≤ n then items[n - first]? else none).or (lookup rest n)

/-- No chunk is empty, and between one and any later one there is at least one number. -/
structure Separated (chunks : List (ℕ × List α)) : Prop where
  filled : ∀ c ∈ chunks, c.2 ≠ []
  apart : chunks.Pairwise fun c d => c.1 + c.2.length < d.1

variable {l m : List (ℕ × List α)} {c : ℕ × List α} {n k : ℕ} {a : α}

theorem separated_nil : Separated ([] : List (ℕ × List α)) :=
  ⟨by simp, List.Pairwise.nil⟩

theorem separated_append : Separated (l ++ m) ↔
    Separated l ∧ Separated m ∧ ∀ c ∈ l, ∀ d ∈ m, c.1 + c.2.length < d.1 := by
  constructor
  · intro whole
    obtain ⟨left, right, across⟩ := List.pairwise_append.mp whole.apart
    exact ⟨⟨fun c member => whole.filled c (List.mem_append_left _ member), left⟩,
      ⟨fun c member => whole.filled c (List.mem_append_right _ member), right⟩, across⟩
  · rintro ⟨left, right, across⟩
    refine ⟨fun c member => ?_, List.pairwise_append.mpr ⟨left.apart, right.apart, across⟩⟩
    exact (List.mem_append.mp member).elim (left.filled c) (right.filled c)

theorem separated_cons : Separated (c :: l) ↔
    c.2 ≠ [] ∧ (∀ d ∈ l, c.1 + c.2.length < d.1) ∧ Separated l := by
  constructor
  · intro whole
    obtain ⟨first, rest⟩ := List.pairwise_cons.mp whole.apart
    exact ⟨whole.filled c List.mem_cons_self, first,
      ⟨fun d member => whole.filled d (List.mem_cons_of_mem c member), rest⟩⟩
  · rintro ⟨filled, first, rest⟩
    refine ⟨fun d member => ?_, List.pairwise_cons.mpr ⟨first, rest.apart⟩⟩
    obtain rfl | later := List.mem_cons.mp member
    · exact filled
    · exact rest.filled d later

theorem lookup_cons : lookup (c :: l) n = (lookup [c] n).or (lookup l n) := by
  simp [lookup]

theorem lookup_append : lookup (l ++ m) n = (lookup l n).or (lookup m n) := by
  induction l with
  | nil => rfl
  | cons c rest ih =>
    rw [List.cons_append, lookup_cons, ih, ← Option.or_assoc, ← lookup_cons]

theorem lookup_single : lookup [c] n = if c.1 ≤ n then c.2[n - c.1]? else none := by
  simp [lookup]

theorem lookup_concat (items others : List α) : lookup [(k, items ++ others)] n =
    (lookup [(k, items)] n).or (lookup [(k + items.length, others)] n) := by
  simp only [lookup_single]
  by_cases started : k ≤ n
  · rw [if_pos started, if_pos started]
    by_cases inside : n - k < items.length
    · rw [List.getElem?_append_left inside, List.getElem?_eq_getElem inside, Option.some_or]
    · rw [List.getElem?_append_right (not_lt.mp inside), List.getElem?_eq_none (not_lt.mp inside),
        if_pos (by omega), Option.none_or, Nat.sub_sub]
  · rw [if_neg started, if_neg started, if_neg (by omega), Option.or_none]

theorem lookup_item : lookup [(k, [a])] n = if n = k then some a else none := by
  rw [lookup_single]
  by_cases same : n = k
  · simp [same]
  · rw [if_neg same]
    split
    · exact List.getElem?_eq_none (by simp only [List.length_singleton]; omega)
    · rfl

theorem lookup_eq_none_iff :
    lookup l n = none ↔ ∀ c ∈ l, n < c.1 ∨ c.1 + c.2.length ≤ n := by
  induction l with
  | nil => simp [lookup]
  | cons c rest ih =>
    rw [lookup_cons, Option.or_eq_none_iff, ih, lookup_single, List.forall_mem_cons]
    refine and_congr_left fun _ => ?_
    split
    · rw [List.getElem?_eq_none_iff]
      omega
    · simp only [true_iff]
      omega

theorem Separated.head_le (separated : Separated (c :: l)) (present : lookup (c :: l) n ≠ none) :
    c.1 ≤ n := by
  rw [ne_eq, lookup_eq_none_iff] at present
  push Not at present
  obtain ⟨d, member, started, -⟩ := present
  obtain rfl | later := List.mem_cons.mp member
  · exact started
  · have before := (separated_cons.mp separated).2.1 d later
    omega

theorem Separated.lookup_head (separated : Separated (c :: l)) : lookup (c :: l) c.1 ≠ none := by
  -- The first chunk has a first item.
  obtain ⟨item, others, filled⟩ := List.exists_cons_of_ne_nil (separated_cons.mp separated).1
  rw [lookup_cons, lookup_single, if_pos le_rfl, filled, Nat.sub_self]
  simp

end Chunks

end Etiam
