import Etiam.Chain.BlockChain

/-! The index of blooms as a table of single blooms, in memory and as it is stored. -/

namespace Etiam

/-- A bloom has every bit of another one. -/
def Contains (outer inner : LogBloom) : Prop := outer &&& inner = inner

namespace Contains

variable {inner : LogBloom}

theorem iff_bits {outer : LogBloom} :
    Contains outer inner ↔ ∀ i, inner.getLsbD i = true → outer.getLsbD i = true := by
  unfold Contains
  constructor
  · intro all i set
    rw [← all, BitVec.getLsbD_and, Bool.and_eq_true] at set
    exact set.1
  · intro bits
    apply BitVec.eq_of_getLsbD_eq
    intro i _
    rw [BitVec.getLsbD_and]
    cases set : inner.getLsbD i with
    | false => simp
    | true => simp [bits i set]

theorem or_left {a b : LogBloom} (contained : Contains a inner) :
    Contains (a ||| b) inner := by
  rw [iff_bits] at contained ⊢
  intro i set
  simp [contained i set]

theorem or_right (a b : LogBloom) : Contains (a ||| b) b := by
  rw [iff_bits]
  intro i set
  simp [set]

theorem trans {a b c : LogBloom} (first : Contains a b) (second : Contains b c) :
    Contains a c := by
  rw [iff_bits] at first second ⊢
  exact fun i set => first i (second i set)

theorem eq_zero (contained : Contains 0 inner) : inner = 0 := by
  rw [← contained]
  simp

end Contains

theorem BlocksBlooms.contains_union (bunch : BlocksBlooms) (o : Fin Config.bloomIndexSize) :
    Contains bunch.union (bunch.blooms o) := by
  -- What the union has taken in it keeps, and every bloom has its turn.
  have kept : ∀ (os : List (Fin Config.bloomIndexSize)) (acc inner : LogBloom),
      Contains acc inner → Contains (os.foldl (fun acc o => acc ||| bunch.blooms o) acc) inner := by
    intro os
    induction os with
    | nil => exact fun _ _ contained => contained
    | cons x rest ih => exact fun acc inner contained => ih _ _ contained.or_left
  have taken : ∀ (os : List (Fin Config.bloomIndexSize)) (acc : LogBloom), o ∈ os →
      Contains (os.foldl (fun acc o => acc ||| bunch.blooms o) acc) (bunch.blooms o) := by
    intro os
    induction os with
    | nil => exact fun _ absent => absurd absent List.not_mem_nil
    | cons x rest ih =>
      intro acc member
      obtain rfl | later := List.mem_cons.mp member
      · exact kept rest _ _ (Contains.or_right _ _)
      · exact ih _ later
  exact taken _ 0 (List.mem_finRange o)

namespace BloomIndex

open Config

variable {c : BloomIndex}

/-- A bloom as a bunch from some table has it. -/
def bloomOf (bunches : ℕ → Option BlocksBlooms) (level index : ℕ) : LogBloom :=
  ((bunches (chunkId level (index / bloomIndexSize))).getD .null).blooms (offset index)

/-- A bloom as it is answered. -/
def look (c : BloomIndex) : ℕ → ℕ → LogBloom := bloomOf c.find

/-- A bloom as it is stored. -/
def stored (c : BloomIndex) : ℕ → ℕ → LogBloom := bloomOf fun id => c.store[id]?

/-- A place of the index that the number of some block leads to. -/
structure Place (level index : ℕ) : Prop where
  few : level < bloomIndexLevels
  low : index < 2 ^ 32 / bloomIndexSize ^ level

namespace Place

variable {level level' index index' : ℕ}

theorem levels (place : Place level index) : level = 0 ∨ level = 1 := by
  have few := place.few
  unfold bloomIndexLevels at few
  omega

theorem of_number {number : ℕ} (bounded : number < 2 ^ 32) (few : level < bloomIndexLevels) :
    Place level (number / bloomIndexSize ^ level) := by
  refine ⟨few, ?_⟩
  have levels : level = 0 ∨ level = 1 := by unfold bloomIndexLevels at few; omega
  unfold bloomIndexSize
  obtain rfl | rfl := levels <;> omega

theorem chunkId_zero_ne_one {i j : ℕ} (low : i < 2 ^ 28) (high : j < 2 ^ 24) :
    chunkId 0 i ≠ chunkId 1 j := by
  intro same
  have plain : chunkId 1 j = j * 255 + 1 := Nat.mod_eq_of_lt (by omega)
  rw [plain, chunkId] at same
  have whole := Nat.div_add_mod (i * 255 + 0) (2 ^ 32)
  have rounds : (i * 255 + 0) / 2 ^ 32 < 16 := by omega
  rw [same] at whole
  generalize (i * 255 + 0) / 2 ^ 32 = q at whole rounds
  interval_cases q <;> omega

theorem chunkId_inj (place : Place level index) (place' : Place level' index') :
    chunkId level (index / bloomIndexSize) = chunkId level' (index' / bloomIndexSize) ↔
      level = level' ∧ index / bloomIndexSize = index' / bloomIndexSize := by
  have low := place.low
  have low' := place'.low
  unfold bloomIndexSize at *
  obtain rfl | rfl := place.levels <;> obtain rfl | rfl := place'.levels
  · unfold chunkId
    omega
  · have apart := @chunkId_zero_ne_one (index / 16) (index' / 16) (by omega) (by omega)
    simp [apart]
  · have apart := @chunkId_zero_ne_one (index' / 16) (index / 16) (by omega) (by omega)
    simp [apart.symm]
  · unfold chunkId
    omega

end Place

variable {index level level' : ℕ}

theorem offset_eq_iff {index' : ℕ} (same : index / bloomIndexSize = index' / bloomIndexSize) :
    offset index = offset index' ↔ index = index' := by
  rw [offset, offset, Fin.mk.injEq]
  unfold bloomIndexSize at *
  omega

theorem look_changeBloom {index' : ℕ} (place : Place level index)
    (place' : Place level' index') (f : LogBloom → LogBloom) :
    look (changeBloom level index f c) level' index' =
      if level' = level ∧ index' = index then f (c.look level index) else c.look level' index' := by
  unfold look bloomOf changeBloom
  rw [Cached.find_change]
  by_cases bunch : level' = level ∧ index' / bloomIndexSize = index / bloomIndexSize
  · obtain ⟨rfl, same⟩ := bunch
    rw [same, if_pos rfl, Option.getD_some]
    by_cases here : index' = index
    · subst here
      simp
    · have apart : offset index' ≠ offset index := fun equal =>
        here ((offset_eq_iff same).mp equal)
      rw [if_neg (fun both => here both.2)]
      exact Function.update_of_ne apart _ _
  · rw [if_neg ((place'.chunkId_inj place).not.mpr bunch), if_neg]
    rintro ⟨rfl, rfl⟩
    exact bunch ⟨rfl, rfl⟩

theorem store_changeBloom (level index : ℕ) (f : LogBloom → LogBloom) :
    (changeBloom level index f c).store = c.store := Cached.store_change _ _ _

theorem addBloom_eq (number : ℕ) (bloom : LogBloom) (c : BloomIndex) :
    addBloom number bloom c =
      changeBloom 1 (number / bloomIndexSize ^ 1) (· ||| bloom)
        (changeBloom 0 (number / bloomIndexSize ^ 0) (· ||| bloom) c) := rfl

theorem look_addBloom {number : ℕ} (bounded : number < 2 ^ 32)
    (place : Place level index) (bloom : LogBloom) :
    look (addBloom number bloom c) level index =
      if index = number / bloomIndexSize ^ level then c.look level index ||| bloom
      else c.look level index := by
  have zero : Place 0 (number / bloomIndexSize ^ 0) := .of_number bounded (by decide)
  have one : Place 1 (number / bloomIndexSize ^ 1) := .of_number bounded (by decide)
  rw [addBloom_eq, look_changeBloom one place, look_changeBloom zero place,
    look_changeBloom zero one]
  -- The two levels differ, so that each of them is changed once.
  obtain rfl | rfl := place.levels
  · by_cases here : index = number / bloomIndexSize ^ 0
    · subst here
      simp
    · rw [if_neg (by omega), if_neg (fun both => here both.2), if_neg here]
  · by_cases here : index = number / bloomIndexSize ^ 1
    · subst here
      simp
    · rw [if_neg (fun both => here both.2), if_neg (by omega), if_neg here]

theorem store_addBloom (number : ℕ) (bloom : LogBloom) :
    (addBloom number bloom c).store = c.store :=
  (store_changeBloom 1 _ (· ||| bloom)).trans (store_changeBloom 0 _ (· ||| bloom))

theorem held_addBloom (number : ℕ) (bloom : LogBloom) {id : ℕ}
    (altered : id ∈ alteredBlooms number) :
    ∃ bunch, (addBloom number bloom c).cache[id]? = some bunch := by
  obtain ⟨level, inside, rfl⟩ := List.mem_map.mp altered
  rw [addBloom_eq, changeBloom, changeBloom, Cached.cache_change]
  split
  · exact ⟨_, rfl⟩
  · next other =>
    obtain rfl | rfl : level = 0 ∨ level = 1 := by
      have few := List.mem_range.mp inside
      unfold bloomIndexLevels at few
      omega
    · rw [Cached.cache_change, if_pos rfl]
      exact ⟨_, rfl⟩
    · exact absurd rfl other

/-- What a bloom is rebuilt to: nothing on the first level, the bunch below it on the others. -/
def rebuilt (c : BloomIndex) : ℕ → ℕ → LogBloom
  | 0, _ => 0
  | below + 1, item => ((c.find (chunkId below item)).getD .null).union

theorem contains_rebuilt (c : BloomIndex) (below index : ℕ) :
    Contains (c.rebuilt (below + 1) (index / bloomIndexSize)) (c.look below index) :=
  BlocksBlooms.contains_union _ _

theorem look_query (id level index : ℕ) : look (c.query id) level index = c.look level index := by
  unfold look bloomOf
  rw [Cached.find_query]

theorem look_rebuildBloom {item : ℕ} (place : Place level item) (place' : Place level' index) :
    look (rebuildBloom level c item) level' index =
      if level' = level ∧ index = item then c.rebuilt level item else c.look level' index := by
  cases level with
  | zero => exact look_changeBloom place place' _
  | succ below =>
    unfold rebuildBloom
    rw [look_changeBloom place place', look_query]
    rfl

theorem rebuilt_rebuildBloom {item item' : ℕ} (place : Place level item)
    (place' : Place level item') :
    rebuilt (rebuildBloom level c item) level item' = c.rebuilt level item' := by
  cases level with
  | zero => rfl
  | succ below =>
    have lower : Place below (item' * bloomIndexSize) := by
      refine ⟨by have few := place.few; omega, ?_⟩
      have low := place'.low
      obtain zero | one := place'.levels
      · omega
      · obtain rfl : below = 0 := by omega
        unfold bloomIndexSize at *
        omega
    have apart := (lower.chunkId_inj place).not.mpr (fun both => by omega)
    rw [Nat.mul_div_cancel _ (by decide)] at apart
    unfold rebuilt rebuildBloom changeBloom
    dsimp only
    rw [Cached.find_change, if_neg apart, Cached.find_query]

theorem look_rebuildLevel {beginDirty endDirty : ℕ}
    (bounded : ∀ item, beginDirty ≤ item → item < endDirty → Place level item)
    (place : Place level' index) :
    look (rebuildLevel level beginDirty endDirty c) level' index =
      if level' = level ∧ beginDirty ≤ index ∧ index < endDirty then c.rebuilt level index
      else c.look level' index := by
  -- The induction is on the stretch, from its first bloom on.
  unfold rebuildLevel
  generalize counted : endDirty - beginDirty = count
  induction count generalizing c beginDirty with
  | zero => rw [if_neg (by omega)]; rfl
  | succ count ih =>
    have first : Place level beginDirty := bounded beginDirty (Nat.le_refl _) (by omega)
    rw [List.range'_succ, List.foldl_cons,
      ih (fun item after low => bounded item (by omega) low) (by omega),
      look_rebuildBloom first place]
    by_cases same : level' = level
    · subst same
      by_cases start : index = beginDirty
      · rw [if_neg (by omega), if_pos ⟨rfl, start⟩, if_pos ⟨rfl, by omega, by omega⟩, start]
      · by_cases inside : beginDirty ≤ index ∧ index < endDirty
        · rw [if_pos ⟨rfl, by omega, inside.2⟩, if_pos ⟨rfl, inside⟩,
            rebuilt_rebuildBloom first (bounded index inside.1 inside.2)]
        · rw [if_neg (by omega), if_neg (fun both => start both.2),
            if_neg (fun both => inside both.2)]
    · rw [if_neg (fun both => same both.1), if_neg (fun both => same both.1),
        if_neg (fun both => same both.1)]

theorem store_rebuildBloom (level item : ℕ) : (rebuildBloom level c item).store = c.store := by
  cases level with
  | zero => exact store_changeBloom _ _ _
  | succ below => exact (store_changeBloom _ _ _).trans (Cached.store_query _)

theorem store_rebuildLevel (level beginDirty endDirty : ℕ) :
    (rebuildLevel level beginDirty endDirty c).store = c.store := by
  unfold rebuildLevel
  generalize List.range' beginDirty (endDirty - beginDirty) = items
  induction items generalizing c with
  | nil => rfl
  | cons item rest ih => exact ih.trans (store_rebuildBloom level item)

section Storing

variable {batch : List (ℕ × BlocksBlooms)}

theorem look_write (held : ∀ entry ∈ batch, c.cache[entry.1]? = some entry.2)
    (level index : ℕ) : look (c.write batch) level index = c.look level index := by
  unfold look bloomOf
  rw [Cached.find_write_of_held held]

theorem stored_write_of_mem (held : ∀ entry ∈ batch, c.cache[entry.1]? = some entry.2)
    {level index : ℕ} (member : ∃ bunch, (chunkId level (index / bloomIndexSize), bunch) ∈ batch) :
    stored (c.write batch) level index = c.look level index := by
  unfold stored look bloomOf
  dsimp only
  rw [Cached.store_write_of_held held member]

theorem stored_write_of_not_mem {level index : ℕ}
    (absent : ¬ ∃ bunch, (chunkId level (index / bloomIndexSize), bunch) ∈ batch) :
    stored (c.write batch) level index = c.stored level index := by
  unfold stored bloomOf
  dsimp only
  rw [Cached.store_write_of_not_mem]
  rintro ⟨id, bunch⟩ member rfl
  exact absent ⟨bunch, member⟩

end Storing

section Clearing

variable {first last : ℕ}

theorem clearBlockBlooms_eq (first last : ℕ) (c : BloomIndex) :
    clearBlockBlooms first last c =
      rebuildLevel 1 (first / bloomIndexSize) ((last - 1) / bloomIndexSize + 1)
        (rebuildLevel 0 first last c) := rfl

theorem store_clearBlockBlooms (first last : ℕ) : (clearBlockBlooms first last c).store = c.store :=
  (store_rebuildLevel _ _ _).trans (store_rebuildLevel _ _ _)

theorem place_upper (positive : 0 < last) (bounded : last ≤ 2 ^ 32) {item : ℕ}
    (low : item < (last - 1) / bloomIndexSize + 1) : Place 1 item := by
  refine ⟨by decide, ?_⟩
  unfold bloomIndexSize at *
  omega

theorem look_clear_zero (positive : 0 < last) (bounded : last ≤ 2 ^ 32) {index : ℕ}
    (low : index < 2 ^ 32) :
    look (clearBlockBlooms first last c) 0 index =
      if first ≤ index ∧ index < last then 0 else c.look 0 index := by
  have place : Place 0 index := ⟨by decide, by simpa using low⟩
  rw [clearBlockBlooms_eq, look_rebuildLevel (fun item _ => place_upper positive bounded) place,
    if_neg (by omega), look_rebuildLevel (fun item _ inside => ⟨by decide, by simp; omega⟩) place]
  by_cases inside : first ≤ index ∧ index < last
  · rw [if_pos ⟨rfl, inside⟩, if_pos inside]
    rfl
  · rw [if_neg (fun both => inside both.2), if_neg inside]

/-- Clearing keeps on the upper level what a block that is not cleared has on both. -/
theorem contains_clear_one (positive : 0 < last) (bounded : last ≤ 2 ^ 32) {number : ℕ}
    {bloom : LogBloom} (low : number < 2 ^ 32) (kept : number < first ∨ last ≤ number)
    (zero : Contains (c.look 0 number) bloom)
    (one : Contains (c.look 1 (number / bloomIndexSize)) bloom) :
    Contains (look (clearBlockBlooms first last c) 1 (number / bloomIndexSize)) bloom := by
  have place : Place 1 (number / bloomIndexSize) := by
    have upper := @Place.of_number 1 number low (by decide)
    rwa [pow_one] at upper
  have below : look (rebuildLevel 0 first last c) 0 number = c.look 0 number := by
    rw [look_rebuildLevel (fun item _ inside => ⟨by decide, by simp; omega⟩)
      ⟨by decide, by simpa using low⟩, if_neg (by omega)]
  rw [clearBlockBlooms_eq, look_rebuildLevel (fun item _ => place_upper positive bounded) place]
  split
  · refine (contains_rebuilt _ 0 number).trans ?_
    rw [below]
    exact zero
  · rw [look_rebuildLevel (fun item _ inside => ⟨by decide, by simp; omega⟩) place,
      if_neg (by omega)]
    exact one

end Clearing

section First

/-- The place of the first block is empty, in memory and as it is stored. -/
structure Vacant (c : BloomIndex) : Prop where
  answered : c.look 0 0 = 0
  stored : c.stored 0 0 = 0

namespace Vacant

theorem place : Place 0 0 := ⟨by decide, by simp⟩

variable (vacant : c.Vacant)

include vacant

theorem addBloom {number : ℕ} (positive : 1 ≤ number) (bounded : number < 2 ^ 32)
    (bloom : LogBloom) : Vacant (BloomIndex.addBloom number bloom c) := by
  constructor
  · rw [look_addBloom bounded place, if_neg (by rw [pow_zero]; omega)]
    exact vacant.answered
  · unfold BloomIndex.stored
    rw [store_addBloom]
    exact vacant.stored

theorem clearBlockBlooms {first last : ℕ} (above : 1 ≤ first) (positive : 0 < last)
    (bounded : last ≤ 2 ^ 32) : Vacant (BloomIndex.clearBlockBlooms first last c) := by
  constructor
  · rw [look_clear_zero positive bounded (by decide), if_neg (by omega)]
    exact vacant.answered
  · unfold BloomIndex.stored
    rw [store_clearBlockBlooms]
    exact vacant.stored

theorem asked {d : BloomIndex} (asks : Cached.Asked c d) : d.Vacant := by
  constructor
  · unfold look bloomOf
    rw [asks.find]
    exact vacant.answered
  · unfold BloomIndex.stored
    rw [asks.store]
    exact vacant.stored

theorem clear : Vacant (Cached.clear c) := by
  refine ⟨?_, vacant.stored⟩
  unfold look bloomOf
  rw [Cached.find_clear]
  exact vacant.stored

theorem held : (c.cache.getD 0 .null).blooms (offset 0) = 0 := by
  rw [Std.ExtTreeMap.getD_eq_getD_getElem?]
  cases kept : c.cache[0]? with
  | none => rfl
  | some bunch =>
    have answered := vacant.answered
    unfold look bloomOf Cached.find at answered
    rw [show chunkId 0 (0 / bloomIndexSize) = 0 from rfl, kept] at answered
    exact answered

theorem write {batch : List (ℕ × BlocksBlooms)}
    (empty : ∀ bunch, (0, bunch) ∈ batch → bunch.blooms (offset 0) = 0) :
    Vacant (Cached.write c batch) := by
  have stored : BloomIndex.stored (Cached.write c batch) 0 0 = 0 := by
    change (((Cached.write c batch).store[0]?).getD BlocksBlooms.null).blooms (offset 0) = 0
    rw [Cached.store_write]
    cases found : batch.reverse.find? (·.1 = 0) with
    | none => exact vacant.stored
    | some entry =>
      have named : entry.1 = 0 := by simpa using List.find?_some found
      have present := List.mem_reverse.mp (List.mem_of_find?_eq_some found)
      exact empty entry.2 (by rw [← named]; exact present)
  refine ⟨?_, stored⟩
  change ((c.cache[0]?.or (Cached.write c batch).store[0]?).getD BlocksBlooms.null).blooms
    (offset 0) = 0
  cases kept : c.cache[0]? with
  | none => exact stored
  | some bunch =>
    have held := vacant.held
    rw [Std.ExtTreeMap.getD_eq_getD_getElem?, kept] at held
    exact held

end Vacant

end First

section Search

variable {b : LogBloom} {earliest latest number : ℕ}

theorem mem_range'_of_bounds {o first last : ℕ} (lower : first ≤ o) (upper : o < last) :
    o ∈ List.range' first (last - first) := by
  rw [List.mem_range'_1]
  omega

variable {index n : ℕ}

/-- What a search takes from a bunch: from each place with the bloom that is not before the start
or after the end of the range. -/
theorem mem_bunch {level x y : ℕ} {p q : Prop} [Decidable p] [Decidable q] {f : ℕ → List ℕ} :
    n ∈ (List.range' (if p then x % bloomIndexSize else 0)
        ((if q then y % bloomIndexSize + 1 else bloomIndexSize) -
          if p then x % bloomIndexSize else 0)).flatMap (fun o =>
        if ((c.find (chunkId level index)).getD .null).blooms (offset o) &&& b = b then f o
        else []) ↔
      ∃ o < bloomIndexSize, (p → x % bloomIndexSize ≤ o) ∧ (q → o ≤ y % bloomIndexSize) ∧
        Contains (c.look level (o + index * bloomIndexSize)) b ∧ n ∈ f o := by
  have places : ∀ o, o ∈ List.range' (if p then x % bloomIndexSize else 0)
      ((if q then y % bloomIndexSize + 1 else bloomIndexSize) -
        if p then x % bloomIndexSize else 0) ↔
      o < bloomIndexSize ∧ (p → x % bloomIndexSize ≤ o) ∧ (q → o ≤ y % bloomIndexSize) := by
    intro o
    rw [List.mem_range'_1]
    unfold bloomIndexSize
    by_cases first : p <;> by_cases last : q <;>
      simp only [first, last, if_true, if_false, true_implies, false_implies, and_true,
        true_and] <;>
      omega
  have bloom : ∀ o < bloomIndexSize, c.look level (o + index * bloomIndexSize) =
      ((c.find (chunkId level index)).getD .null).blooms (offset o) := by
    intro o low
    have bunch : (o + index * bloomIndexSize) / bloomIndexSize = index := by
      unfold bloomIndexSize at *
      omega
    have place : offset (o + index * bloomIndexSize) = offset o :=
      Fin.ext (Nat.add_mul_mod_self_right _ _ _)
    rw [look, bloomOf, bunch, place]
  simp only [List.mem_flatMap, places]
  constructor
  · rintro ⟨o, ⟨low, first, last⟩, found⟩
    split at found
    · next contained => exact ⟨o, low, first, last, (bloom o low).symm ▸ contained, found⟩
    · cases found
  · rintro ⟨o, low, first, last, contained, found⟩
    refine ⟨o, ⟨low, first, last⟩, ?_⟩
    rw [Contains, bloom o low] at contained
    rwa [if_pos contained]

theorem mem_withBlockBloomIn_zero :
    n ∈ withBlockBloomIn c b earliest latest 0 index ↔
      n / bloomIndexSize = index ∧ Contains (c.look 0 n) b ∧
        (index = earliest / bloomIndexSize → earliest ≤ n) ∧
        (index = latest / bloomIndexSize → n ≤ latest) := by
  have fine : upow bloomIndexSize 0 = 1 := rfl
  have course : upow bloomIndexSize (0 + 1) = bloomIndexSize := rfl
  unfold withBlockBloomIn
  rw [mem_bunch]
  simp only [fine, course, Nat.div_one, List.mem_singleton]
  unfold bloomIndexSize
  constructor
  · rintro ⟨o, low, first, last, contained, rfl⟩
    exact ⟨by omega, contained, fun here => by have := first here; omega,
      fun here => by have := last here; omega⟩
  · rintro ⟨rfl, contained, first, last⟩
    have place : n % 16 + n / 16 * 16 = n := Nat.mod_add_div' n 16
    refine ⟨n % 16, Nat.mod_lt _ (by decide), fun here => ?_, fun here => ?_, ?_, place.symm⟩
    · have := first here
      omega
    · have := last here
      omega
    · rwa [place]

theorem mem_withBlockBloomIn_one :
    n ∈ withBlockBloomIn c b earliest latest 1 index ↔
      n / 256 = index ∧ Contains (c.look 1 (n / bloomIndexSize)) b ∧ Contains (c.look 0 n) b ∧
        (index = earliest / 256 → earliest ≤ n) ∧ (index = latest / 256 → n ≤ latest) := by
  have fine : upow bloomIndexSize 1 = bloomIndexSize := rfl
  have course : upow bloomIndexSize (1 + 1) = 256 := rfl
  unfold withBlockBloomIn
  rw [mem_bunch]
  simp only [fine, course, mem_withBlockBloomIn_zero]
  unfold bloomIndexSize
  constructor
  · rintro ⟨o, low, first, last, upper, bunch, contained, begins, ends⟩
    refine ⟨by omega, bunch ▸ upper, contained, fun here => ?_, fun here => ?_⟩
    · have := first here
      by_cases same : o + index * 16 = earliest / 16
      · exact begins same
      · omega
    · have := last here
      by_cases same : o + index * 16 = latest / 16
      · exact ends same
      · omega
  · rintro ⟨rfl, upper, contained, first, last⟩
    have bunch : n / 16 % 16 + n / 256 * 16 = n / 16 := by omega
    refine ⟨n / 16 % 16, Nat.mod_lt _ (by decide), fun here => ?_, fun here => ?_, ?_, ?_⟩
    · have := first here
      omega
    · have := last here
      omega
    · exact bunch.symm ▸ upper
    · rw [bunch]
      exact ⟨rfl, contained, fun same => first (by omega), fun same => last (by omega)⟩

theorem mem_withBlockBloom (early : earliest ≤ number) (late : number ≤ latest)
    (bounded : latest + 255 < 2 ^ 32) (zero : Contains (c.look 0 number) b)
    (one : Contains (c.look 1 (number / bloomIndexSize)) b) :
    number ∈ withBlockBloom c b earliest latest := by
  unfold withBlockBloom
  rw [List.mem_flatMap]
  refine ⟨number / 256, ?_,
    mem_withBlockBloomIn_one.mpr ⟨rfl, one, zero, fun _ => early, fun _ => late⟩⟩
  refine mem_range'_of_bounds ?_ ?_
  · simp only [upow, bloomIndexSize, bloomIndexLevels]
    omega
  · simp only [upow, bloomIndexSize, bloomIndexLevels, ceilDiv]
    omega

end Search

end BloomIndex

end Etiam
