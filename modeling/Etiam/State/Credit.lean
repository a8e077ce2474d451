import Etiam.State.Session

/-! Crediting an account before the state is committed, and after it. -/

namespace Etiam

namespace CachedState

open CachedAccount

/-- The account that a credit goes to, made anew where there is none. -/
def credited (s : CachedState) (a : Address) : CachedAccount :=
  (s.account a).1.getD (made s.accountStartNonce 0)

/-- What a commit writes of an account after a credit. -/
def written (e : CachedAccount) (amount : U256) : Option Account :=
  settled .removeEmptyAccounts none (some (e.addBalance amount))

/-- The account of an address is written alike after a credit, whether or not the state is
committed before the credit. -/
def CreditSafe (s : CachedState) (a : Address) (amount : U256) : Prop :=
  written (s.credited a) amount = written ((s.commit .removeEmptyAccounts).credited a) amount

instance (s : CachedState) (a : Address) (amount : U256) : Decidable (s.CreditSafe a amount) :=
  inferInstanceAs (Decidable (_ = _))

section Credit

variable {s : CachedState} {a b : Address} {amount : U256}

theorem commit_evict (b : Address) :
    (s.evict.commit .removeEmptyAccounts).state[b]? =
      (s.commit .removeEmptyAccounts).state[b]? := by
  -- Only an entry that is not marked as changed is dropped, and such an entry is not written.
  rw [getElem?_commit, getElem?_commit]
  unfold evict
  simp only
  split
  · next found held =>
    split
    · rfl
    · next clean =>
      rw [Std.ExtTreeMap.getElem?_erase]
      split
      · next same =>
        rw [Std.LawfulEqCmp.eq_of_compare same] at held
        simp only [held, settled, clean]
        rfl
      · rfl
  · rfl

theorem commit_clearCacheIfTooLarge (b : Address) :
    (s.clearCacheIfTooLarge.commit .removeEmptyAccounts).state[b]? =
      (s.commit .removeEmptyAccounts).state[b]? := by
  -- One entry after the other is dropped.
  have iterated : ∀ n, ((evict^[n] s).commit .removeEmptyAccounts).state[b]? =
      (s.commit .removeEmptyAccounts).state[b]? := by
    intro n
    induction n with
    | zero => rfl
    | succ n ih => rw [Function.iterate_succ_apply', commit_evict, ih]
  exact iterated _

theorem accountStartNonce_clearCacheIfTooLarge (s : CachedState) :
    s.clearCacheIfTooLarge.accountStartNonce = s.accountStartNonce := by
  -- Dropping an entry leaves the start nonce alone.
  have once : ∀ t : CachedState, t.evict.accountStartNonce = t.accountStartNonce := by
    intro t
    unfold evict
    simp only
    split
    · split <;> rfl
    · rfl
  have iterated : ∀ n, (evict^[n] s).accountStartNonce = s.accountStartNonce := by
    intro n
    induction n with
    | zero => rfl
    | succ n ih => rw [Function.iterate_succ_apply', once, ih]
  exact iterated _

theorem commit_account (apart : a ≠ b) :
    ((s.account a).2.commit .removeEmptyAccounts).state[b]? =
      (s.commit .removeEmptyAccounts).state[b]? := by
  -- Only where the account is loaded does the cache change.
  unfold account
  split
  · rfl
  · split
    · rfl
    · split
      · rw [getElem?_commit, getElem?_commit]
      · next stored there =>
        refine Eq.trans ?_ (commit_clearCacheIfTooLarge b)
        rw [getElem?_commit, getElem?_commit]
        simp [put, Std.ExtTreeMap.getElem?_insert, apart]

theorem accountStartNonce_account : (s.account a).2.accountStartNonce = s.accountStartNonce := by
  unfold account
  split
  · rfl
  · split
    · rfl
    · split
      · rfl
      · simp only [put]
        rw [accountStartNonce_clearCacheIfTooLarge]

theorem made_addBalance (nonce amount : U256) :
    (made nonce 0).addBalance amount = made nonce amount := by
  simp [made, CachedAccount.addBalance]

theorem cache_addBalance : (s.addBalance a amount).cache =
      (s.account a).2.cache.insert a ((s.credited a).addBalance amount) ∧
    (s.addBalance a amount).state = (s.account a).2.state := by
  have nonce : (s.account a).2.accountStartNonce = s.accountStartNonce :=
    accountStartNonce_account
  -- The log entries that a credit may add are not in the cache.
  rcases outcome : s.account a with ⟨found, t⟩
  rw [outcome] at nonce
  simp only [addBalance, credited, outcome]
  cases found with
  | some e =>
    simp only [Option.getD_some]
    split <;> split <;> exact ⟨rfl, rfl⟩
  | none =>
    rw [Option.getD_none, made_addBalance, ← nonce]
    split <;> exact ⟨rfl, rfl⟩

theorem commit_addBalance (b : Address) :
    ((s.addBalance a amount).commit .removeEmptyAccounts).state[b]? =
      if a = b then written (s.credited a) amount
      else (s.commit .removeEmptyAccounts).state[b]? := by
  obtain ⟨cache, state⟩ : (s.addBalance a amount).cache = _ ∧
      (s.addBalance a amount).state = _ := cache_addBalance
  split
  · next same =>
    subst same
    -- The credit marks the account as changed, so what the trie holds does not matter.
    rw [getElem?_commit, cache, Std.ExtTreeMap.getElem?_insert_self]
    rfl
  · next apart =>
    refine Eq.trans ?_ (commit_account apart)
    rw [getElem?_commit, getElem?_commit, cache, state, Std.ExtTreeMap.getElem?_insert,
      if_neg (by simpa using apart)]

theorem commit_commit (b : Address) :
    ((s.commit .removeEmptyAccounts).commit .removeEmptyAccounts).state[b]? =
      (s.commit .removeEmptyAccounts).state[b]? := by
  have bare : (s.commit .removeEmptyAccounts).cache[b]? = none := by
    unfold commit
    exact Std.ExtTreeMap.getElem?_empty
  rw [getElem?_commit, bare]
  rfl

theorem addBalance_commit_eq_iff :
    ((s.addBalance a amount).commit .removeEmptyAccounts).state =
      (((s.commit .removeEmptyAccounts).addBalance a amount).commit .removeEmptyAccounts).state ↔
    s.CreditSafe a amount := by
  constructor
  · intro same
    have here := congrArg (fun accounts => accounts[a]?) same
    simp only [commit_addBalance, if_true] at here
    exact here
  · intro safe
    refine Std.ExtTreeMap.ext_getElem? fun b => ?_
    rw [commit_addBalance, commit_addBalance, commit_commit]
    split
    · exact safe
    · rfl

end Credit

section Consistent

variable {s : CachedState} {a : Address} {amount : U256} {e f : CachedAccount}

theorem written_eq : written e amount =
    if (e.addBalance amount).isEmpty = true then none
    else if e.isAlive = true then some (e.addBalance amount).content else none := by
  -- A credit marks the account as changed.
  have dirty : (e.addBalance amount).isDirty = true := rfl
  have lives : (e.addBalance amount).isAlive = e.isAlive := rfl
  cases empty : (e.addBalance amount).isEmpty with
  | true => simp [written, settled, dirty, empty]
  | false => cases alive : e.isAlive <;> simp [written, settled, dirty, empty, lives, alive]

theorem written_congr (alive : f.isAlive = e.isAlive) (content : f.content = e.content) :
    written f amount = written e amount := by
  have credited : (f.addBalance amount).content = (e.addBalance amount).content := by
    have balance : f.balance = e.balance := congrArg Account.balance content
    rw [content_addBalance, content_addBalance, content, balance]
  rw [written_eq, written_eq, alive, credited, CachedAccount.isEmpty_eq, credited,
    ← CachedAccount.isEmpty_eq]

theorem credited_eq (faithful : s.Faithful) :
    s.credited a = (s.lookup a).getD (made s.accountStartNonce 0) := by
  rw [credited, fst_account faithful.absent]

theorem written_made (nonce : U256) : written (made nonce 0) amount =
    if nonce = 0 ∧ amount = 0 then none else some (.fresh nonce amount) := by
  rw [written_eq, made_addBalance, content_made,
    if_pos (show (made nonce 0).isAlive = true from rfl)]
  have empty : (made nonce amount).isEmpty = true ↔ nonce = 0 ∧ amount = 0 := by
    simp [made, isEmpty]
  simp only [empty]

theorem written_doomed (doomed : Doomed e) : written e amount =
    if amount = 0 ∨ e.isAlive = false then none
    else some ⟨0, amount, [], e.content.storage⟩ := by
  rw [written_eq]
  cases alive : e.isAlive with
  | false => simp
  | true =>
    -- A living account is removed because it is empty.
    have empty : e.isEmpty = true := doomed.2.resolve_right (by simp [alive])
    simp only [isEmpty, Bool.and_eq_true, beq_iff_eq] at empty
    obtain ⟨⟨nonce, balance⟩, code⟩ := empty
    have holds : (e.addBalance amount).isEmpty = true ↔ amount = 0 := by
      simp [isEmpty, CachedAccount.addBalance, nonce, balance, code]
    have content : (e.addBalance amount).content = ⟨0, amount, [], e.content.storage⟩ := by
      simp [CachedAccount.content, CachedAccount.addBalance, nonce, balance, code]
    simp only [holds, content, if_true, Bool.true_eq_false, or_false]

/-- A credit and a commit can be exchanged unless the account is going to be removed: then it must
be like an account that is made anew, or be removed anyway. -/
theorem creditSafe_iff (faithful : s.Faithful) (listed : s.Listed) :
    s.CreditSafe a amount ↔ ∀ e, s.lookup a = some e → Doomed e → s.accountStartNonce = 0 ∧
      (amount = 0 ∨ e.isAlive = true ∧ e.content.storage = .empty) := by
  obtain ⟨faithful', -⟩ := listed.commit
  rw [CreditSafe, credited_eq faithful, credited_eq faithful', lookup_commit,
    accountStartNonce_commit]
  cases shown : s.lookup a with
  | none =>
    rw [commit_of_missing shown]
    simp
  | some e =>
    simp only [Option.getD_some, Option.some.injEq, forall_eq']
    by_cases doomed : Doomed e
    · rw [commit_of_doomed shown doomed, Option.map_none, Option.getD_none, written_made,
        written_doomed doomed]
      -- Both are removed, or both are written with the same nonce and storage.
      by_cases gone : amount = 0 ∨ e.isAlive = false
      · rw [if_pos gone]
        constructor
        · intro same _
          by_cases both : s.accountStartNonce = 0 ∧ amount = 0
          · exact ⟨both.1, .inl both.2⟩
          · rw [if_neg both] at same
            cases same
        · intro like
          obtain ⟨nonce, nothing | ⟨alive, -⟩⟩ := like doomed
          · rw [if_pos ⟨nonce, nothing⟩]
          · rw [if_pos ⟨nonce, gone.resolve_right (by simp [alive])⟩]
      · obtain ⟨something, alive⟩ := not_or.mp gone
        rw [if_neg gone, if_neg fun both => something both.2, Option.some.injEq]
        simp only [Account.fresh, Account.mk.injEq, true_and, something, false_or]
        constructor
        · rintro ⟨nonce, storage⟩ -
          exact ⟨nonce.symm, by simpa using alive, storage⟩
        · intro like
          obtain ⟨nonce, -, storage⟩ := like doomed
          exact ⟨nonce.symm, storage⟩
    · obtain ⟨alive, stored⟩ := commit_of_not_doomed faithful shown doomed
      rw [stored, Option.map_some, Option.getD_some]
      have same : written (loaded e.content) amount = written e amount :=
        written_congr alive.symm (content_loaded _)
      exact ⟨fun _ removed => absurd removed doomed, fun _ => same.symm⟩

end Consistent

end CachedState

end Etiam
