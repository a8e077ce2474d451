import Etiam.Library.Bytes

/-! Rebuilding an ordered map from its entries, and sums over a table with one entry changed. -/

namespace Etiam

variable {K V : Type} [Ord K] [Std.TransOrd K] [Std.LawfulEqOrd K]

/-- Emplace entries in order, where an entry never replaces one that is there. -/
def emplaceAll (table : Std.ExtTreeMap K V) (entries : List (K × V)) : Std.ExtTreeMap K V :=
  entries.foldl (fun table entry => table.insertIfNew entry.1 entry.2) table

theorem getElem?_emplaceAll (table : Std.ExtTreeMap K V) (entries : List (K × V)) (key : K) :
    (emplaceAll table entries)[key]? =
      table[key]?.or ((entries.find? (fun entry => compare entry.1 key == .eq)).map (·.2)) := by
  -- The table grows along the list, so it stays quantified over.
  induction entries generalizing table with
  | nil => simp [emplaceAll]
  | cons entry rest ih =>
    have step := ih (table.insertIfNew entry.1 entry.2)
    simp only [emplaceAll, List.foldl_cons] at step ⊢
    rw [step, Std.ExtTreeMap.getElem?_insertIfNew]
    by_cases same : compare entry.1 key = .eq
    · have equal : entry.1 = key := Std.LawfulEqCmp.eq_of_compare same
      subst equal
      by_cases present : entry.1 ∈ table
      · simp [present]
      · simp [present]
    · simp [same]

theorem emplaceAll_toList (table : Std.ExtTreeMap K V) : emplaceAll ∅ table.toList = table := by
  apply Std.ExtTreeMap.ext_getElem?
  intro key
  rw [getElem?_emplaceAll, Std.ExtTreeMap.getElem?_empty, Option.none_or]
  cases found : table.toList.find? (fun entry => compare entry.1 key == .eq) with
  | none =>
    have absent := Std.ExtTreeMap.find?_toList_eq_none_iff_not_mem.mp found
    simp [Std.ExtTreeMap.getElem?_eq_none absent]
  | some entry =>
    obtain ⟨k, v⟩ := entry
    have present :=
      (Std.ExtTreeMap.find?_toList_eq_some_iff_getKey?_eq_some_and_getElem?_eq_some.mp found).2
    simp [present]

/-- Folding a map into something that is read key by key changes each key by its own entry. -/
theorem get_foldl_toList {β γ : Type*} (table : Std.ExtTreeMap K V) (f : β → K × V → β)
    (get : β → K → γ) (put : V → γ → γ)
    (own : ∀ b k v, get (f b (k, v)) k = put v (get b k))
    (other : ∀ b k v key, k ≠ key → get (f b (k, v)) key = get b key) (b : β) (key : K) :
    get (table.toList.foldl f b) key =
      table[key]?.elim (get b key) fun v => put v (get b key) := by
  have untouched : ∀ (entries : List (K × V)) (b : β), (∀ e ∈ entries, e.1 ≠ key) →
      get (entries.foldl f b) key = get b key := by
    intro entries
    induction entries with
    | nil => intro b _; rfl
    | cons e rest ih =>
      intro b absent
      rw [List.foldl_cons, ih _ fun e' member => absent e' (.tail _ member),
        other b e.1 e.2 key (absent e (.head _))]
  -- The entry of the key, if there is one, is met exactly once.
  have met : ∀ (entries : List (K × V)) (b : β) (v : V),
      entries.Pairwise (fun e e' => ¬ compare e.1 e'.1 = .eq) → (key, v) ∈ entries →
      get (entries.foldl f b) key = put v (get b key) := by
    intro entries
    induction entries with
    | nil => intro b v _ member; cases member
    | cons e rest ih =>
      intro b v distinct member
      obtain ⟨first, distinct⟩ := List.pairwise_cons.mp distinct
      rcases List.mem_cons.mp member with rfl | member
      · rw [List.foldl_cons, untouched, own]
        intro e' later same
        exact first e' later (same ▸ Std.ReflCmp.compare_self)
      · have apart : e.1 ≠ key := fun same =>
          first _ member (same ▸ Std.ReflCmp.compare_self)
        rw [List.foldl_cons, ih _ v distinct member, other b e.1 e.2 key apart]
  cases found : table[key]? with
  | some v =>
    exact met _ b v Std.ExtTreeMap.distinct_keys_toList
      (Std.ExtTreeMap.mem_toList_iff_getElem?_eq_some.mpr found)
  | none =>
    refine untouched _ b fun e member same => ?_
    have present : table[e.1]? = some e.2 :=
      Std.ExtTreeMap.mem_toList_iff_getElem?_eq_some.mp member
    rw [same, found] at present
    cases present

theorem sum_change {α : Type} [Fintype α] [DecidableEq α] {f g : α → ℕ} (x : α)
    (same : ∀ y, y ≠ x → g y = f y) : ∑ y, g y + f x = ∑ y, f y + g x := by
  rw [← Finset.add_sum_erase _ f (Finset.mem_univ x),
    ← Finset.add_sum_erase _ g (Finset.mem_univ x)]
  have rest : ∑ y ∈ Finset.univ.erase x, g y = ∑ y ∈ Finset.univ.erase x, f y :=
    Finset.sum_congr rfl fun y member => same y (Finset.ne_of_mem_erase member)
  omega

theorem add_le_sum {α : Type} [Fintype α] [DecidableEq α] (f : α → ℕ) {x y : α} (apart : x ≠ y) :
    f x + f y ≤ ∑ z, f z := by
  have pair := Finset.sum_le_sum_of_subset (f := f) (Finset.subset_univ {x, y})
  rwa [Finset.sum_pair apart] at pair

end Etiam
