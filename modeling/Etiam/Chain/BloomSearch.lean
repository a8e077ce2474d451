import Etiam.Chain.BloomIndex

/-! A search by bloom finds what the blooms of the single blocks say, up to the end of the last
bunch that it looks into. -/

namespace Etiam

namespace BloomIndex

open Config

variable {c : BloomIndex}

/-- Every bloom above the first level is the union of the blooms below it. -/
def Hierarchical (c : BloomIndex) : Prop :=
  ∀ level index, level + 1 < bloomIndexLevels → index < 2 ^ 32 / bloomIndexSize ^ (level + 1) →
    c.look (level + 1) index = c.rebuilt (level + 1) index

section Union

theorem getLsbD_union (bunch : BlocksBlooms) (i : ℕ) :
    bunch.union.getLsbD i = true ↔ ∃ o, (bunch.blooms o).getLsbD i = true := by
  -- The induction is on the blooms that are still to be taken in.
  have taken : ∀ (os : List (Fin bloomIndexSize)) (acc : LogBloom),
      (os.foldl (fun acc o => acc ||| bunch.blooms o) acc).getLsbD i = true ↔
        acc.getLsbD i = true ∨ ∃ o ∈ os, (bunch.blooms o).getLsbD i = true := by
    intro os
    induction os with
    | nil => simp
    | cons o rest ih =>
      intro acc
      rw [List.foldl_cons, ih, BitVec.getLsbD_or, Bool.or_eq_true, or_assoc]
      simp
  rw [BlocksBlooms.union, taken]
  simp

theorem getLsbD_rebuilt (below item i : ℕ) :
    (c.rebuilt (below + 1) item).getLsbD i = true ↔
      ∃ n, n / bloomIndexSize = item ∧ (c.look below n).getLsbD i = true := by
  rw [rebuilt, getLsbD_union]
  constructor
  · rintro ⟨o, set⟩
    have bunch : (item * bloomIndexSize + o) / bloomIndexSize = item := by
      have low := o.isLt
      unfold bloomIndexSize at *
      omega
    have place : offset (item * bloomIndexSize + o) = o := by
      apply Fin.ext
      show (item * bloomIndexSize + o) % bloomIndexSize = o
      rw [Nat.mul_add_mod', Nat.mod_eq_of_lt o.isLt]
    refine ⟨item * bloomIndexSize + o, bunch, ?_⟩
    rw [look, bloomOf, bunch, place]
    exact set
  · rintro ⟨n, rfl, set⟩
    exact ⟨offset n, set⟩

theorem hierarchical_empty : Hierarchical ⟨∅, ∅⟩ := by
  intro level index _ _
  apply BitVec.eq_of_getLsbD_eq
  intro i _
  have blank : ∀ level n, (look ⟨∅, ∅⟩ level n).getLsbD i = false := by
    intro level n
    simp [look, bloomOf, Cached.find, BlocksBlooms.null]
  rw [blank, eq_comm, Bool.eq_false_iff, ne_eq, getLsbD_rebuilt]
  rintro ⟨n, -, set⟩
  rw [blank] at set
  cases set

/-- Adding the bloom of a block keeps every bloom the union of those below it. -/
theorem Hierarchical.addBloom (whole : c.Hierarchical) {number : ℕ} (bounded : number < 2 ^ 32)
    (bloom : LogBloom) : Hierarchical (BloomIndex.addBloom number bloom c) := by
  -- A bit above is set exactly if one of the blooms below has it.
  intro level index few low
  obtain rfl : level = 0 := by unfold bloomIndexLevels at few; omega
  have place : Place 1 index := ⟨by decide, low⟩
  apply BitVec.eq_of_getLsbD_eq
  intro i _
  rw [look_addBloom bounded place, Bool.eq_iff_iff, getLsbD_rebuilt]
  have before : (c.look 1 index).getLsbD i = true ↔
      ∃ n, n / bloomIndexSize = index ∧ (c.look 0 n).getLsbD i = true := by
    rw [whole 0 index few low, getLsbD_rebuilt]
  have lower : ∀ n, n / bloomIndexSize = index → Place 0 n := by
    intro n here
    refine ⟨by decide, ?_⟩
    unfold bloomIndexSize at *
    omega
  rw [pow_one]
  constructor
  · intro set
    by_cases here : index = number / bloomIndexSize
    · rw [if_pos here, BitVec.getLsbD_or, Bool.or_eq_true, before] at set
      obtain ⟨n, same, old⟩ | new := set
      · refine ⟨n, same, ?_⟩
        rw [look_addBloom bounded (lower n same)]
        split
        · rw [BitVec.getLsbD_or, old, Bool.true_or]
        · exact old
      · refine ⟨number, here.symm, ?_⟩
        rw [look_addBloom bounded (lower number here.symm), if_pos (by simp), BitVec.getLsbD_or,
          new, Bool.or_true]
    · rw [if_neg here, before] at set
      obtain ⟨n, same, old⟩ := set
      refine ⟨n, same, ?_⟩
      rw [look_addBloom bounded (lower n same), if_neg]
      · exact old
      · rw [pow_zero, Nat.div_one]
        rintro rfl
        exact here same.symm
  · rintro ⟨n, same, set⟩
    rw [look_addBloom bounded (lower n same), pow_zero, Nat.div_one] at set
    by_cases this : n = number
    · subst this
      rw [if_pos rfl, BitVec.getLsbD_or, Bool.or_eq_true] at set
      rw [if_pos same.symm, BitVec.getLsbD_or, Bool.or_eq_true, before]
      exact set.imp (fun old => ⟨n, same, old⟩) id
    · rw [if_neg this] at set
      have old := before.mpr ⟨n, same, set⟩
      split
      · rw [BitVec.getLsbD_or, old, Bool.true_or]
      · exact old

end Union

section Search

variable {b : LogBloom} {earliest latest : ℕ}

theorem mem_withBlockBloomIn_top (whole : c.Hierarchical) {index n : ℕ} (bounded : n < 2 ^ 32) :
    n ∈ withBlockBloomIn c b earliest latest 1 index ↔
      n / 256 = index ∧ Contains (c.look 0 n) b ∧ (index = earliest / 256 → earliest ≤ n) ∧
        (index = latest / 256 → n ≤ latest) := by
  -- The upper bloom contains what the block's own one does, so that the bunch is looked into.
  have upper : Contains (c.look 0 n) b → Contains (c.look 1 (n / bloomIndexSize)) b := by
    intro contained
    rw [whole 0 _ (by decide) (by unfold bloomIndexSize; omega)]
    exact (contains_rebuilt c 0 n).trans contained
  rw [mem_withBlockBloomIn_one]
  exact ⟨fun found => ⟨found.1, found.2.2⟩,
    fun found => ⟨found.1, upper found.2.1, found.2⟩⟩

theorem withBlockBloomIn_bounds {level index n : ℕ}
    (found : n ∈ withBlockBloomIn c b earliest latest level index) :
    n / bloomIndexSize ^ (level + 1) = index := by
  -- The induction is on the level: what is below a place of a bunch is below the bunch.
  induction level generalizing index with
  | zero =>
    unfold withBlockBloomIn at found
    obtain ⟨o, low, -, -, -, found⟩ := mem_bunch.mp found
    obtain rfl := List.mem_singleton.mp found
    rw [zero_add, pow_one]
    unfold bloomIndexSize at *
    omega
  | succ level ih =>
    unfold withBlockBloomIn at found
    obtain ⟨o, low, -, -, -, found⟩ := mem_bunch.mp found
    rw [pow_succ, ← Nat.div_div_eq_div_mul, ih found]
    unfold bloomIndexSize at *
    omega

theorem withBlockBloomIn_ascending (level index : ℕ) :
    (withBlockBloomIn c b earliest latest level index).Pairwise (· < ·) := by
  induction level generalizing index with
  | zero =>
    unfold withBlockBloomIn
    rw [List.pairwise_flatMap]
    refine ⟨?_, ?_⟩
    · intro o _
      split <;> simp
    · refine (List.pairwise_lt_range' ..).imp ?_
      intro o o' less x found y found'
      split at found <;> split at found' <;> simp at found found'
      omega
  | succ level ih =>
    unfold withBlockBloomIn
    rw [List.pairwise_flatMap]
    refine ⟨?_, ?_⟩
    · intro o _
      split
      · exact ih _
      · exact List.Pairwise.nil
    · refine (List.pairwise_lt_range' ..).imp ?_
      intro o o' less x found y found'
      split at found <;> split at found'
      · have here := withBlockBloomIn_bounds found
        have there := withBlockBloomIn_bounds found'
        by_contra order
        have := Nat.div_le_div_right (c := bloomIndexSize ^ (level + 1)) (Nat.le_of_not_lt order)
        omega
      all_goals simp at found found'

/-- What a search finds: of the last bunch it looks into, all that follows unless the range ends
there. -/
theorem mem_withBlockBloom_iff (whole : c.Hierarchical) {n : ℕ} :
    n ∈ c.withBlockBloom b earliest latest ↔
      earliest ≤ n ∧ Contains (c.look 0 n) b ∧ n / 256 ≤ ceilDiv latest 256 ∧
        (n / 256 = latest / 256 → n ≤ latest) := by
  have course : upow bloomIndexSize bloomIndexLevels = 256 := rfl
  have top : ceilDiv latest 256 < 2 ^ 24 := by unfold ceilDiv; omega
  unfold withBlockBloom
  simp only [course, List.mem_flatMap, List.mem_range'_1]
  constructor
  · rintro ⟨index, inside, found⟩
    have here : n / 256 = index := withBlockBloomIn_bounds found
    obtain ⟨-, contained, first, last⟩ := (mem_withBlockBloomIn_top whole (by omega)).mp found
    subst here
    refine ⟨?_, contained, by omega, last⟩
    by_cases same : n / 256 = earliest / 256
    · exact first same
    · omega
  · rintro ⟨early, contained, low, last⟩
    refine ⟨n / 256, by omega, ?_⟩
    exact (mem_withBlockBloomIn_top whole (by omega)).mpr ⟨rfl, contained, fun _ => early, last⟩

theorem withBlockBloom_ascending :
    (c.withBlockBloom b earliest latest).Pairwise (· < ·) := by
  unfold withBlockBloom
  rw [List.pairwise_flatMap]
  refine ⟨fun index _ => withBlockBloomIn_ascending _ index, ?_⟩
  refine (List.pairwise_lt_range' ..).imp ?_
  intro index index' less x found y found'
  have here : x / 256 = index := withBlockBloomIn_bounds found
  have there : y / 256 = index' := withBlockBloomIn_bounds found'
  omega

/-- A search finds exactly the blocks of its range with the bloom if there is none in the bunch
after a range that ends within a bunch, and if the end of the range does not overflow. -/
theorem withBlockBloom_exact_iff (whole : c.Hierarchical) (order : earliest ≤ latest)
    (bounded : latest < 2 ^ 32) (b : LogBloom) :
    ((c.withBlockBloom b earliest latest).Pairwise (· < ·) ∧
      ∀ n, n ∈ c.withBlockBloom b earliest latest ↔
        earliest ≤ n ∧ n ≤ latest ∧ Contains (c.look 0 n) b) ↔
    (latest % 256 ≠ 0 → latest + 255 < 2 ^ 32 →
      ∀ n, n / 256 = latest / 256 + 1 → ¬ Contains (c.look 0 n) b) ∧
    (2 ^ 32 ≤ latest + 255 →
      ∀ n, 256 ≤ n → earliest ≤ n → n ≤ latest → ¬ Contains (c.look 0 n) b) := by
  simp only [mem_withBlockBloom_iff whole]
  constructor
  · rintro ⟨-, exact⟩
    refine ⟨?_, ?_⟩
    · intro within fits n next contained
      have wrong := ((exact n).mp ⟨by omega, contained, by unfold ceilDiv; omega, by omega⟩).2.1
      omega
    · intro wraps n high early late contained
      have right := ((exact n).mpr ⟨early, late, contained⟩).2.2.1
      unfold ceilDiv at right
      omega
  · rintro ⟨after, overflow⟩
    refine ⟨withBlockBloom_ascending, ?_⟩
    intro n
    constructor
    · rintro ⟨early, contained, low, last⟩
      refine ⟨early, ?_, contained⟩
      by_contra late
      -- A block after the range lies in the bunch after the one where the range ends.
      unfold ceilDiv at low
      by_cases fits : latest + 255 < 2 ^ 32
      · exact after (by omega) fits n (by omega) contained
      · omega
    · rintro ⟨early, late, contained⟩
      refine ⟨early, contained, ?_, fun _ => late⟩
      unfold ceilDiv
      by_cases fits : latest + 255 < 2 ^ 32
      · omega
      · by_contra
        exact overflow (by omega) n (by omega) early late contained

/-- An index with one block in it is searched exactly up to the end of a bunch. -/
theorem withBlockBloom_exact_iff_bunch :
    let c := addBloom 300 4 ⟨∅, ∅⟩
    ∀ n, n ∈ c.withBlockBloom 4 0 512 ↔ 0 ≤ n ∧ n ≤ 512 ∧ Contains (c.look 0 n) 4 := by
  intro c
  have whole : c.Hierarchical := hierarchical_empty.addBloom (by decide) 4
  have exact := @withBlockBloom_exact_iff c 0 512 whole (by decide) (by decide) 4
  exact (exact.mpr ⟨fun within => absurd rfl within, fun wraps => absurd wraps (by decide)⟩).2

/-- A search among the first two blocks finds a later one. -/
theorem withBlockBloom_overruns :
    Hierarchical (addBloom 300 4 ⟨∅, ∅⟩) ∧
      withBlockBloom (addBloom 300 4 ⟨∅, ∅⟩) 4 0 1 = [300] :=
  ⟨hierarchical_empty.addBloom (by decide) 4, by decide +kernel⟩

end Search

end BloomIndex

end Etiam
