import Mathlib

/-! A table that is stored, read through a cache that is filled when it is asked. -/

namespace Etiam

/-- A stored table and the part of it that is held in memory. -/
structure Cached (K V : Type) [Ord K] [Std.TransOrd K] where
  store : Std.ExtTreeMap K V
  cache : Std.ExtTreeMap K V

namespace Cached

variable {K V : Type} [Ord K] [Std.TransOrd K]

section Operations

variable (c : Cached K V)

/-- What a query for a key answers. -/
def find (key : K) : Option V := c.cache[key]?.or c.store[key]?

/-- Answer a query, which leaves what was found in memory. -/
def query (key : K) : Cached K V :=
  match c.cache[key]?, c.store[key]? with
  | none, some value => { c with cache := c.cache.insert key value }
  | _, _ => c

/-- Query a key and change the entry in memory, where a missing one is first made. -/
def change (key : K) (missing : V) (f : V → V) : Cached K V :=
  let c := c.query key
  { c with cache := c.cache.insert key (f (c.cache.getD key missing)) }

/-- Forget the keys of a list. -/
def eraseAll (keys : List K) : Cached K V :=
  { c with cache := keys.foldl (fun cache key => cache.erase key) c.cache }

/-- Forget everything that is held in memory. -/
def clear : Cached K V := { c with cache := ∅ }

/-- Store the entries of a batch, the later ones over the earlier. -/
def write (batch : List (K × V)) : Cached K V :=
  { c with store := batch.foldl (fun store entry => store.insert entry.1 entry.2) c.store }

end Operations

/-- What is held in memory is as it is stored. -/
def Coherent (c : Cached K V) : Prop :=
  ∀ (key : K) (value : V), c.cache[key]? = some value → c.store[key]? = some value

variable {c : Cached K V}

@[simp] theorem store_query (key : K) : (c.query key).store = c.store := by
  unfold query
  split <;> rfl

@[simp] theorem store_change (key : K) (missing : V) (f : V → V) :
    (c.change key missing f).store = c.store := store_query key

@[simp] theorem store_eraseAll (keys : List K) : (c.eraseAll keys).store = c.store := rfl

@[simp] theorem store_clear : c.clear.store = c.store := rfl

@[simp] theorem cache_write (batch : List (K × V)) : (c.write batch).cache = c.cache := rfl

@[simp] theorem find_clear (k : K) : c.clear.find k = c.store[k]? := by simp [find, clear]

/-- What is stored does not depend on the cache. -/
theorem store_write_congr {d : Cached K V} (same : c.store = d.store) (batch : List (K × V)) :
    (c.write batch).store = (d.write batch).store := by
  rw [write, write, same]

/-- What queries can do: fill the cache, with every answer as it was. -/
structure Asked (c d : Cached K V) : Prop where
  store : d.store = c.store
  find : ∀ k : K, d.find k = c.find k
  kept : ∀ (k : K) (v : V), c.cache[k]? = some v → d.cache[k]? = some v

theorem Asked.refl (c : Cached K V) : Asked c c := ⟨rfl, fun _ => rfl, fun _ _ held => held⟩

theorem Asked.trans {d e : Cached K V} (first : Asked c d) (second : Asked d e) : Asked c e where
  store := second.store.trans first.store
  find k := (second.find k).trans (first.find k)
  kept k v held := second.kept k v (first.kept k v held)

/-- What is in memory after queries was answered before them. -/
theorem Asked.find_of_held {d : Cached K V} (asked : Asked c d) {k : K} {v : V}
    (held : d.cache[k]? = some v) : c.find k = some v := by
  rw [← asked.find, Cached.find, held]
  rfl

/-- Answers of a coherent cache are what is stored. -/
theorem Coherent.find_eq (coherent : c.Coherent) (k : K) : c.find k = c.store[k]? := by
  unfold find
  cases held : c.cache[k]? with
  | some value => rw [coherent k value held]; rfl
  | none => rfl

/-- Queries keep a cache coherent. -/
theorem Coherent.asked {d : Cached K V} (coherent : c.Coherent) (asked : Asked c d) :
    d.Coherent := by
  intro k value held
  rw [asked.store, ← coherent.find_eq]
  exact asked.find_of_held held

variable [Std.LawfulEqOrd K] [DecidableEq K]

/-- A query leaves its answer in memory. -/
theorem cache_query (key k : K) :
    (c.query key).cache[k]? = if k = key then c.find key else c.cache[k]? := by
  unfold query find
  by_cases same : k = key
  · subst same
    cases held : c.cache[k]? with
    | some value => simp [held]
    | none =>
      cases stored : c.store[k]? with
      | some value => simp
      | none => simp [held]
  · cases held : c.cache[key]? with
    | some value => simp [same]
    | none =>
      cases stored : c.store[key]? with
      | some value => simp [Std.ExtTreeMap.getElem?_insert, same, Ne.symm same]
      | none => simp [same]

/-- A query changes no answer. -/
@[simp] theorem find_query (key k : K) : (c.query key).find k = c.find k := by
  unfold find
  rw [cache_query, store_query]
  split
  · next same =>
    subst same
    unfold find
    cases c.cache[k]? with
    | some value => rfl
    | none => simp
  · rfl

/-- A change leaves its result in memory. -/
theorem cache_change (key k : K) (missing : V) (f : V → V) :
    (c.change key missing f).cache[k]? =
      if k = key then some (f ((c.find key).getD missing)) else c.cache[k]? := by
  have filled : (c.query key).cache[key]? = c.find key := by rw [cache_query, if_pos rfl]
  unfold change
  simp only [Std.ExtTreeMap.getElem?_insert, Std.ExtTreeMap.getD_eq_getD_getElem?, filled]
  by_cases same : k = key
  · simp [same]
  · rw [cache_query]
    simp [same, Ne.symm same]

/-- A change is answered from then on. -/
theorem find_change (key k : K) (missing : V) (f : V → V) :
    (c.change key missing f).find k =
      if k = key then some (f ((c.find key).getD missing)) else c.find k := by
  unfold find
  rw [cache_change, store_change]
  split
  · rfl
  · rfl

/-- Forgotten keys are not in memory. -/
theorem cache_eraseAll (keys : List K) (k : K) :
    (c.eraseAll keys).cache[k]? = if k ∈ keys then none else c.cache[k]? := by
  -- The cache shrinks along the list, so it stays quantified over.
  suffices erased : ∀ cache : Std.ExtTreeMap K V,
      (keys.foldl (fun cache key => cache.erase key) cache)[k]? =
        if k ∈ keys then none else cache[k]? from erased c.cache
  induction keys with
  | nil => simp
  | cons key rest ih =>
    intro cache
    rw [List.foldl_cons, ih]
    by_cases later : k ∈ rest
    · simp [later]
    · by_cases same : key = k
      · simp [same]
      · simp [later, same, Ne.symm same, Std.ExtTreeMap.getElem?_erase]

/-- A batch is stored entry after entry, so the last one under a key is read back. -/
theorem store_write (batch : List (K × V)) (k : K) :
    (c.write batch).store[k]? =
      ((batch.reverse.find? (·.1 = k)).map (·.2)).or c.store[k]? := by
  suffices stored : ∀ store : Std.ExtTreeMap K V,
      (batch.foldl (fun store entry => store.insert entry.1 entry.2) store)[k]? =
        ((batch.reverse.find? (·.1 = k)).map (·.2)).or store[k]? from stored c.store
  induction batch with
  | nil => simp
  | cons entry rest ih =>
    intro store
    rw [List.foldl_cons, ih, List.reverse_cons, List.find?_append]
    cases found : rest.reverse.find? (·.1 = k) with
    | some later => simp
    | none =>
      by_cases same : entry.1 = k
      · simp [same]
      · simp [same, Std.ExtTreeMap.getElem?_insert]

variable {batch : List (K × V)} {k : K}

/-- Other keys are stored as before. -/
theorem store_write_of_not_mem
    (absent : ∀ entry ∈ batch, entry.1 ≠ k) : (c.write batch).store[k]? = c.store[k]? := by
  have missing : batch.reverse.find? (·.1 = k) = none := by
    rw [List.find?_eq_none]
    intro entry member
    simpa using absent entry (List.mem_reverse.mp member)
  rw [store_write, missing]
  rfl

/-- A key of a batch is stored with its one value. -/
theorem store_write_of_mem {v : V} (member : (k, v) ∈ batch)
    (single : ∀ w, (k, w) ∈ batch → w = v) : (c.write batch).store[k]? = some v := by
  rw [store_write]
  cases found : batch.reverse.find? (·.1 = k) with
  | none =>
    rw [List.find?_eq_none] at found
    exact absurd (decide_eq_true rfl) (found (k, v) (List.mem_reverse.mpr member))
  | some entry =>
    have named : entry.1 = k := by simpa using List.find?_some found
    have present := List.mem_reverse.mp (List.mem_of_find?_eq_some found)
    rw [Option.map_some, Option.some_or, ← single entry.2 (by rw [← named]; exact present)]

/-- Storing what is held in memory changes no answer. -/
theorem find_write_of_held (held : ∀ entry ∈ batch, c.cache[entry.1]? = some entry.2) (k : K) :
    (c.write batch).find k = c.find k := by
  unfold find
  rw [cache_write]
  cases inMemory : c.cache[k]? with
  | some value => rfl
  | none =>
    rw [store_write_of_not_mem]
    intro entry member same
    rw [← same, held entry member] at inMemory
    cases inMemory

/-- What is stored from memory is what was answered. -/
theorem store_write_of_held (held : ∀ entry ∈ batch, c.cache[entry.1]? = some entry.2)
    (member : ∃ v, (k, v) ∈ batch) : (c.write batch).store[k]? = c.find k := by
  obtain ⟨v, inside⟩ := member
  have value : ∀ w, (k, w) ∈ batch → c.cache[k]? = some w := fun w mem => held (k, w) mem
  rw [store_write_of_mem inside fun w mem =>
      Option.some.inj ((value w mem).symm.trans (value v inside)),
    find, value v inside]
  rfl

/-- A query is one. -/
theorem Asked.query (c : Cached K V) (key : K) : Asked c (c.query key) where
  store := store_query key
  find := find_query key
  kept k v held := by
    rw [cache_query]
    split
    · next same =>
      subst same
      rw [Cached.find, held]
      rfl
    · exact held

/-- Forgetting keys keeps a cache coherent. -/
theorem Coherent.eraseAll (coherent : c.Coherent) (keys : List K) : (c.eraseAll keys).Coherent := by
  intro k value held
  rw [cache_eraseAll] at held
  split at held
  · cases held
  · exact coherent k value held

end Cached

end Etiam
