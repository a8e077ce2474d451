import Etiam.State.Cache

/-! What a cached state shows of each account, whichever part of it sits in the cache. -/

namespace Etiam

/-- No newer words leave a storage as it is. -/
@[simp] theorem Storage.overlay_empty (base : Storage) : base.overlay ∅ = base := by
  ext key
  simp

namespace CachedAccount

variable (e : CachedAccount)

@[simp] theorem content_addBalance (value : U256) :
    (e.addBalance value).content = { e.content with balance := e.balance + value } := rfl

@[simp] theorem content_setNonce (nonce : U256) :
    (e.setNonce nonce).content = { e.content with nonce } := rfl

@[simp] theorem content_setCode (code : Bytes) :
    (e.setCode code).content = { e.content with code } := rfl

/-- A word written to the overlay is a word of the storage. -/
@[simp] theorem content_setStorage (key value : U256) :
    (e.setStorage key value).content =
      { e.content with storage := e.content.storage.write key value } := by
  have words : e.baseRoot.overlay (e.storageOverlay.insert key value) =
      (e.baseRoot.overlay e.storageOverlay).write key value := by
    ext other
    simp only [Storage.read_overlay, Storage.read_write, Std.ExtTreeMap.getElem?_insert,
      Std.LawfulEqCmp.compare_eq_iff_eq]
    split <;> rfl
  simp only [content, setStorage, words]

@[simp] theorem content_setStorageRoot (root : Storage) :
    (e.setStorageRoot root).content = { e.content with storage := root } := by
  simp only [content, setStorageRoot, Storage.overlay_empty]

@[simp] theorem content_made (nonce balance : U256) :
    (made nonce balance).content = .fresh nonce balance := by
  simp only [content, made, Storage.overlay_empty, Account.fresh]

@[simp] theorem content_loaded (stored : Account) : (loaded stored).content = stored := by
  simp only [content, loaded, Storage.overlay_empty]

/-- Keeping a word that was read changes nothing. -/
theorem content_setStorageCache {key : U256} (absent : e.storageOverlay[key]? = none) :
    (e.setStorageCache key (e.baseRoot.read key)).content = e.content := by
  have words : e.baseRoot.overlay (e.storageOverlay.insert key (e.baseRoot.read key)) =
      e.baseRoot.overlay e.storageOverlay := by
    ext other
    simp only [Storage.read_overlay, Std.ExtTreeMap.getElem?_insert,
      Std.LawfulEqCmp.compare_eq_iff_eq]
    split
    · next same => simp [← same, absent]
    · rfl
  simp only [content, setStorageCache, words]

theorem isEmpty_eq : e.isEmpty =
    (e.content.nonce == 0 && e.content.balance == 0 && e.content.code == []) := rfl

/-- Cache entries that stand for the same account in the same condition. -/
structure Alike (e f : CachedAccount) : Prop where
  alive : f.isAlive = e.isAlive
  unchanged : f.isUnchanged = e.isUnchanged
  root : f.baseRoot = e.baseRoot
  content : f.content = e.content

theorem Alike.refl (e : CachedAccount) : Alike e e := ⟨rfl, rfl, rfl, rfl⟩

theorem Alike.symm {e f : CachedAccount} (alike : Alike e f) : Alike f e :=
  ⟨alike.alive.symm, alike.unchanged.symm, alike.root.symm, alike.content.symm⟩

theorem Alike.trans {e f g : CachedAccount} (first : Alike e f) (second : Alike f g) :
    Alike e g :=
  ⟨second.alive.trans first.alive, second.unchanged.trans first.unchanged,
    second.root.trans first.root, second.content.trans first.content⟩

end CachedAccount

namespace CachedState

open CachedAccount

/-- The account that an address shows, from the cache or else from the trie. -/
def lookup (s : CachedState) (a : Address) : Option CachedAccount :=
  s.cache[a]?.or (s.state[a]?.map .loaded)

/-- The unchanged part of the cache agrees with the trie. -/
structure Faithful (s : CachedState) : Prop where
  absent : ∀ a ∈ s.nonExistingAccountsCache, s.state[a]? = none
  clean : ∀ (a : Address) (e : CachedAccount), s.cache[a]? = some e → e.isDirty = false →
    ∃ stored, s.state[a]? = some stored ∧ Alike (.loaded stored) e

/-- Two options of cache entries that are both none, or alike. -/
def SameShown : Option CachedAccount → Option CachedAccount → Prop
  | none, none => True
  | some e, some f => Alike e f
  | _, _ => False

theorem SameShown.refl (shown : Option CachedAccount) : SameShown shown shown := by
  cases shown with
  | none => trivial
  | some e => exact Alike.refl e

/-- What shows the same as an account is one like it. -/
theorem SameShown.of_some {e : CachedAccount} {y : Option CachedAccount}
    (same : SameShown (some e) y) : ∃ f, y = some f ∧ Alike e f := by
  cases y with
  | none => exact same.elim
  | some f => exact ⟨f, rfl, same⟩

theorem SameShown.trans {x y z : Option CachedAccount} (first : SameShown x y)
    (second : SameShown y z) : SameShown x z := by
  rcases x with _ | e <;> rcases y with _ | f <;> rcases z with _ | g
  case none.none.none => trivial
  case some.some.some => exact Alike.trans first second
  all_goals first | exact first.elim | exact second.elim

/-- Every address noted as one without an account shows none. -/
def Listed (s : CachedState) : Prop := ∀ a ∈ s.nonExistingAccountsCache, s.lookup a = none

/-- What reading may do: load, drop and complete cache entries, and nothing that shows. -/
structure Reads (s s' : CachedState) : Prop where
  state : s'.state = s.state
  changeLog : s'.changeLog = s.changeLog
  accountStartNonce : s'.accountStartNonce = s.accountStartNonce
  faithful : s'.Faithful
  shown : ∀ a, SameShown (s.lookup a) (s'.lookup a)
  /-- A changed entry stays in the cache as it is. -/
  kept : ∀ (a : Address) (e : CachedAccount), s.cache[a]? = some e → e.isDirty = true →
    ∃ f, s'.cache[a]? = some f ∧ Alike e f
  /-- Only addresses without an account are noted as such. -/
  noted : ∀ a ∈ s'.nonExistingAccountsCache, a ∈ s.nonExistingAccountsCache ∨ s.lookup a = none

theorem Reads.refl {s : CachedState} (faithful : s.Faithful) : Reads s s :=
  ⟨rfl, rfl, rfl, faithful, fun a => .refl (s.lookup a), fun _ e held _ => ⟨e, held, .refl e⟩,
    fun _ => .inl⟩

theorem Reads.trans {s t u : CachedState} (first : Reads s t) (second : Reads t u) : Reads s u where
  state := second.state.trans first.state
  changeLog := second.changeLog.trans first.changeLog
  accountStartNonce := second.accountStartNonce.trans first.accountStartNonce
  faithful := second.faithful
  shown a := (first.shown a).trans (second.shown a)
  kept a e held dirty := by
    obtain ⟨f, held', alike⟩ := first.kept a e held dirty
    have dirty' : f.isDirty = true := by rw [isDirty, alike.unchanged]; exact dirty
    obtain ⟨g, held'', alike'⟩ := second.kept a f held' dirty'
    exact ⟨g, held'', alike.trans alike'⟩
  noted a there := by
    rcases second.noted a there with before | missing
    · exact first.noted a before
    · -- What shows nothing after the first reading showed nothing before it.
      have same := first.shown a
      rw [missing] at same
      cases shown : s.lookup a with
      | none => exact .inr rfl
      | some e => rw [shown] at same; exact same.elim

section Reading

variable {s : CachedState}

variable {a : Address} {e : CachedAccount}

/-- What is in the cache is what shows. -/
theorem lookup_of_cached (held : s.cache[a]? = some e) :
    s.lookup a = some e := by
  rw [lookup, held, Option.some_or]

theorem lookup_ne_none (held : s.cache[a]? = some e) :
    s.lookup a ≠ none := by
  rw [lookup_of_cached held]
  exact Option.some_ne_none e

/-- Nothing shows where neither the cache nor the trie has an account. -/
theorem lookup_eq_none :
    s.lookup a = none ↔ s.cache[a]? = none ∧ s.state[a]? = none := by
  rw [lookup, Option.or_eq_none_iff, Option.map_eq_none_iff]

section

variable (faithful : s.Faithful)

include faithful

/-- An account that shows unchanged is like the one of the trie. -/
theorem Faithful.alike (shown : s.lookup a = some e) (clean : e.isDirty = false) :
    ∃ stored, s.state[a]? = some stored ∧ Alike (.loaded stored) e := by
  cases held : s.cache[a]? with
  | some found =>
    obtain rfl := Option.some.inj ((lookup_of_cached held).symm.trans shown)
    exact faithful.clean a found held clean
  | none =>
    simp only [lookup, held, Option.none_or, Option.map_eq_some_iff] at shown
    obtain ⟨stored, there, rfl⟩ := shown
    exact ⟨stored, there, .refl _⟩

/-- Dropping an unchanged entry from the cache shows the same account from the trie. -/
theorem Reads.erase {addr : Address} (held : s.cache[addr]? = some e) (clean : e.isDirty = false)
    (entries : List Address) (engine : ℕ → ℕ) :
    Reads s { s with cache := s.cache.erase addr, unchangedCacheEntries := entries, engine } where
  state := rfl
  changeLog := rfl
  accountStartNonce := rfl
  faithful := by
    refine ⟨faithful.absent, fun a f held' clean' => ?_⟩
    simp only [Std.ExtTreeMap.getElem?_erase, Std.LawfulEqCmp.compare_eq_iff_eq] at held'
    split at held'
    · cases held'
    · exact faithful.clean a f held' clean'
  shown a := by
    simp only [lookup, Std.ExtTreeMap.getElem?_erase, Std.LawfulEqCmp.compare_eq_iff_eq]
    split
    · next same =>
      subst same
      obtain ⟨stored, there, alike⟩ := faithful.clean addr e held clean
      simp only [held, there, Option.some_or, Option.none_or, Option.map_some]
      exact alike.symm
    · exact .refl _
  kept a f held' dirty := by
    have apart : addr ≠ a := by
      rintro rfl
      rw [held] at held'
      cases held'
      rw [clean] at dirty
      cases dirty
    exact ⟨f, by simpa [Std.ExtTreeMap.getElem?_erase, apart] using held', .refl f⟩
  noted _ := .inl

/-- Dropping an entry at random only reads. -/
theorem Reads.evict : Reads s s.evict := by
  unfold CachedState.evict
  simp only
  split
  · next found held =>
    split
    · exact ⟨rfl, rfl, rfl, ⟨faithful.absent, faithful.clean⟩, fun a => .refl _,
        fun _ e held _ => ⟨e, held, .refl e⟩, fun _ => .inl⟩
    · next clean => exact .erase faithful held (by simpa using clean) _ _
  · exact ⟨rfl, rfl, rfl, ⟨faithful.absent, faithful.clean⟩, fun a => .refl _,
      fun _ e held _ => ⟨e, held, .refl e⟩, fun _ => .inl⟩

/-- So does dropping entries until few are left. -/
theorem Reads.clearCacheIfTooLarge : Reads s s.clearCacheIfTooLarge := by
  have iterated : ∀ n, Reads s (CachedState.evict^[n] s) := by
    intro n
    induction n with
    | zero => exact .refl faithful
    | succ n ih =>
      rw [Function.iterate_succ_apply']
      exact ih.trans (.evict ih.faithful)
  exact iterated _

/-- Replacing a shown account by one like it only reads. -/
theorem Reads.put {f : CachedAccount} (shows_e : s.lookup a = some e) (alike : Alike e f)
    (entries : List Address) :
    Reads s { s.put a f with unchangedCacheEntries := entries } where
  state := rfl
  changeLog := rfl
  accountStartNonce := rfl
  faithful := by
    refine ⟨faithful.absent, fun b g held clean => ?_⟩
    simp only [CachedState.put, Std.ExtTreeMap.getElem?_insert,
      Std.LawfulEqCmp.compare_eq_iff_eq] at held
    split at held
    · next same =>
      subst same
      cases held
      have clean_e : e.isDirty = false := by rw [isDirty, ← alike.unchanged]; exact clean
      obtain ⟨stored, there, before⟩ := faithful.alike shows_e clean_e
      exact ⟨stored, there, before.trans alike⟩
    · exact faithful.clean b g held clean
  shown b := by
    simp only [lookup, CachedState.put, Std.ExtTreeMap.getElem?_insert,
      Std.LawfulEqCmp.compare_eq_iff_eq]
    split
    · next same =>
      subst same
      simp only [lookup] at shows_e
      simpa [shows_e, SameShown] using alike
    · exact .refl _
  kept b g held dirty := by
    by_cases same : a = b
    · subst same
      simp only [lookup, held, Option.some_or, Option.some.injEq] at shows_e
      subst shows_e
      exact ⟨f, by simp [CachedState.put], alike⟩
    · exact ⟨g, by simpa [CachedState.put, Std.ExtTreeMap.getElem?_insert, same] using held,
        .refl g⟩
  noted _ := .inl

/-- The account found is the one that shows, and is cached if there is one. -/
theorem account_spec (a : Address) :
    (s.account a).1 = s.lookup a ∧ Reads s (s.account a).2 ∧
      (s.account a).2.cache[a]? = s.lookup a := by
  unfold account
  split
  · next found held =>
    have shown : s.lookup a = some found := by simp [lookup, held]
    exact ⟨shown.symm, .refl faithful, held.trans shown.symm⟩
  · next uncached =>
    split
    · next noted =>
      have shown : s.lookup a = none := by simp [lookup, uncached, faithful.absent a noted]
      exact ⟨shown.symm, .refl faithful, uncached.trans shown.symm⟩
    · split
      · next missing =>
        have shown : s.lookup a = none := by simp [lookup, uncached, missing]
        refine ⟨shown.symm, ⟨rfl, rfl, rfl, ⟨fun b noted => ?_, faithful.clean⟩,
          fun b => .refl _, fun _ e held _ => ⟨e, held, .refl e⟩, fun b noted => ?_⟩,
          uncached.trans shown.symm⟩
        · rcases Std.ExtTreeSet.mem_insert.mp noted with same | noted
          · rwa [← Std.LawfulEqCmp.compare_eq_iff_eq.mp same]
          · exact faithful.absent b noted
        · rcases Std.ExtTreeSet.mem_insert.mp noted with same | noted
          · exact .inr (Std.LawfulEqCmp.compare_eq_iff_eq.mp same ▸ shown)
          · exact .inl noted
      · next stored there =>
        have shown : s.lookup a = some (.loaded stored) := by simp [lookup, uncached, there]
        have cleared := Reads.clearCacheIfTooLarge faithful
        -- Dropping entries cannot bring the address into the cache, so the trie still shows it.
        have still := cleared.shown a
        rw [shown] at still
        obtain ⟨e, later, alike⟩ := still.of_some
        exact ⟨shown.symm, cleared.trans (.put cleared.faithful later alike.symm _),
          by simp [CachedState.put, shown]⟩

/-- An account that shows is found and cached. -/
theorem account_of_some (shown : s.lookup a = some e) :
    ∃ t, s.account a = (some e, t) ∧ Reads s t ∧ t.cache[a]? = some e := by
  obtain ⟨found, reads, cached⟩ := account_spec faithful a
  exact ⟨_, Prod.ext (found.trans shown) rfl, reads, cached.trans shown⟩

/-- Where none shows, none is found. -/
theorem account_of_none (missing : s.lookup a = none) :
    ∃ t, s.account a = (none, t) ∧ Reads s t := by
  obtain ⟨found, reads, -⟩ := account_spec faithful a
  exact ⟨_, Prod.ext (found.trans missing) rfl, reads⟩

/-- Looking for an account either finds the one that shows or none. -/
theorem account_cases (a : Address) :
    (∃ e t, s.account a = (some e, t) ∧ s.lookup a = some e ∧ Reads s t ∧
      t.cache[a]? = some e) ∨
    ∃ t, s.account a = (none, t) ∧ s.lookup a = none ∧ Reads s t := by
  cases shown : s.lookup a with
  | some e =>
    obtain ⟨t, outcome, reads, held⟩ := account_of_some faithful shown
    exact .inl ⟨e, t, outcome, rfl, reads, held⟩
  | none =>
    obtain ⟨t, outcome, reads⟩ := account_of_none faithful shown
    exact .inr ⟨t, outcome, rfl, reads⟩

/-- Reading a word gives that of the account that shows. -/
theorem storage_spec (a : Address) (key : U256) :
    (s.storage a key).1 = (s.lookup a).elim 0 (·.content.storage.read key) ∧
      Reads s (s.storage a key).2 ∧
      SameShown (s.lookup a) (s.storage a key).2.cache[a]? := by
  obtain ⟨found, reads, cached⟩ := account_spec faithful a
  unfold storage
  split
  · next t outcome =>
    rw [outcome] at found reads cached
    rw [← found] at cached ⊢
    exact ⟨rfl, reads, by rw [cached]; trivial⟩
  · next e t outcome =>
    rw [outcome] at found reads cached
    simp only [← found] at cached ⊢
    split
    · next value held =>
      refine ⟨?_, reads, by rw [cached]; exact Alike.refl e⟩
      simp [content, held]
    · next missing =>
      have shown : t.lookup a = some e := by simp [lookup, cached]
      have same : Alike e (e.setStorageCache key (e.baseRoot.read key)) :=
        ⟨rfl, rfl, rfl, content_setStorageCache e missing⟩
      refine ⟨?_, reads.trans (.put reads.faithful shown same t.unchangedCacheEntries), ?_⟩
      · simp [content, missing]
      · simpa [CachedState.put, SameShown] using same

end

/-- Reading neither makes nor removes an account. -/
theorem Reads.lookup_eq_none {t : CachedState} (reads : Reads s t) :
    t.lookup a = none ↔ s.lookup a = none := by
  have same := reads.shown a
  cases before : s.lookup a with
  | none => cases after : t.lookup a <;> simp [before, after, SameShown] at same ⊢
  | some e => cases after : t.lookup a <;> simp [before, after, SameShown] at same ⊢

end Reading

section Committing

variable (s : CachedState) (behaviour : CommitBehaviour) (a : Address)

/-- What a commit leaves in the trie for one account. -/
def settled (behaviour : CommitBehaviour) (stored : Option Account) :
    Option CachedAccount → Option Account
  | none => stored
  | some e =>
    if e.isDirty then
      if behaviour = .removeEmptyAccounts ∧ e.isEmpty = true then none
      else if e.isAlive then some e.content else none
    else stored

/-- A commit settles each account by its own cache entry. -/
theorem getElem?_commit :
    (s.commit behaviour).state[a]? = settled behaviour s.state[a]? s.cache[a]? := by
  have folded : ∀ (cache : Std.ExtTreeMap Address CachedAccount),
      (cache.toList.foldl commitEntry s.state)[a]? =
        cache[a]?.elim s.state[a]? fun e : CachedAccount =>
          if e.isDirty then if e.isAlive then some e.content else none else s.state[a]? := by
    intro cache
    refine get_foldl_toList cache commitEntry (fun state a => state[a]?)
      (fun e before => if e.isDirty then if e.isAlive then some e.content else none else before)
      (fun state b e => ?_) (fun state b e other apart => ?_) s.state a
    · simp only [commitEntry]
      split <;> [split; rfl] <;> simp
    · simp only [commitEntry]
      split <;> [split; rfl] <;>
        simp [Std.ExtTreeMap.getElem?_insert, Std.ExtTreeMap.getElem?_erase, apart]
  cases behaviour with
  | keepEmptyAccounts =>
    simp only [commit, reduceCtorEq, if_false]
    rw [folded]
    cases s.cache[a]? with
    | none => rfl
    | some e => simp [settled]
  | removeEmptyAccounts =>
    simp only [commit, if_true, removeEmptyAccounts]
    rw [folded, Std.ExtTreeMap.getElem?_map]
    cases s.cache[a]? with
    | none => rfl
    | some e =>
      -- An entry that is killed is changed and dead, so it is removed.
      simp only [Option.map_some, settled, true_and]
      by_cases dirty : e.isDirty = true <;> by_cases empty : e.isEmpty = true
      · have killed : e.kill.isDirty = true := rfl
        have dead : e.kill.isAlive = false := rfl
        simp [dirty, empty, killed, dead]
      · simp [dirty, empty]
      · simp [dirty]
      · simp [dirty]

/-- A commit settles what shows, cached or not. -/
theorem settled_lookup :
    settled behaviour s.state[a]? (s.lookup a) = (s.commit behaviour).state[a]? := by
  rw [getElem?_commit]
  cases cached : s.cache[a]? with
  | some e => simp [lookup, cached]
  | none =>
    cases there : s.state[a]? with
    | none => simp [lookup, cached, there]
    | some stored => simp [lookup, cached, there, settled, loaded, isDirty]

/-- A new entry shows at its address only. -/
@[simp] theorem lookup_put (e : CachedAccount) (b : Address) :
    (s.put a e).lookup b = if a = b then some e else s.lookup b := by
  simp only [lookup, put, Std.ExtTreeMap.getElem?_insert, Std.LawfulEqCmp.compare_eq_iff_eq]
  split <;> rfl

@[simp] theorem put_put (e f : CachedAccount) : (s.put a e).put a f = s.put a f := by
  have same : (s.cache.insert a e).insert a f = s.cache.insert a f := by
    apply Std.ExtTreeMap.ext_getElem?
    intro b
    simp only [Std.ExtTreeMap.getElem?_insert]
    split <;> rfl
  simp only [put, same]

@[simp] theorem lookup_log (change : Change) : (s.log change).lookup a = s.lookup a := rfl

end Committing

end CachedState

end Etiam
