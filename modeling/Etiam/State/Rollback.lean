import Etiam.State.Lookup

/-! Rolling back to a savepoint restores every account, as far as the log allows. -/

namespace Etiam

namespace Change

/-- The address whose entry a change is about. -/
def address : Change → Address
  | .touch a => a
  | .balance a _ => a
  | .nonce a _ => a
  | .storage a _ _ => a
  | .storageRoot a _ => a
  | .code a _ => a
  | .create a => a

/-- What taking a change back does to a cache entry that is there. -/
def revert : Change → CachedAccount → CachedAccount
  | .touch _, e => e.untouch
  | .balance _ value, e => e.addBalance (0 - value)
  | .nonce _ old, e => e.setNonce old
  | .storage _ key old, e => e.setStorage key old
  | .storageRoot _ old, e => e.setStorageRoot old
  | .code _ old, e => e.setCode old
  | .create _, e => e

/-- The change is the creation of an account. -/
def IsCreate : Change → Prop
  | .create _ => True
  | _ => False

end Change

namespace CachedState

open CachedAccount

/-- Take changes back, the newest first. -/
def undoAll (s : CachedState) (changes : List Change) : CachedState := changes.foldl undo s

/-- A cache entry that is as good as another: it shows the same and commits to the same. -/
structure Agree (e f : CachedAccount) : Prop where
  alive : f.isAlive = e.isAlive
  root : f.baseRoot = e.baseRoot
  content : f.content = e.content
  dirty : e.isDirty = true → f.isDirty = true
  /-- An entry may be marked as changed for nothing only where it is not empty. -/
  touched : f.isDirty = true → e.isDirty = true ∨ e.isEmpty = false

/-- The same for options of entries. -/
def Agrees : Option CachedAccount → Option CachedAccount → Prop
  | none, none => True
  | some e, some f => Agree e f
  | _, _ => False

/-- One state is as good as another to read from and to commit. -/
structure Restores (s u : CachedState) : Prop where
  state : u.state = s.state
  accountStartNonce : u.accountStartNonce = s.accountStartNonce
  absent : ∀ a ∈ u.nonExistingAccountsCache, u.state[a]? = none
  shown : ∀ a, Agrees (s.lookup a) (u.lookup a)

/-- The logged changes lead back from one state to another. -/
structure Reverts (s : CachedState) (changes : List Change) (s' : CachedState) : Prop where
  changeLog : s'.changeLog = changes ++ s.changeLog
  back : ∀ u, Restores s' u → Restores s (u.undoAll changes)

section Relations

variable {s t u : CachedState}

theorem Agree.refl (e : CachedAccount) : Agree e e := ⟨rfl, rfl, rfl, id, .inl⟩

theorem Agrees.refl (shown : Option CachedAccount) : Agrees shown shown := by
  cases shown with
  | none => trivial
  | some e => exact Agree.refl e

theorem Agrees.of_some {e : CachedAccount} {y : Option CachedAccount} (agrees : Agrees (some e) y) :
    ∃ f, y = some f ∧ Agree e f := by
  cases y with
  | none => exact agrees.elim
  | some f => exact ⟨f, rfl, agrees⟩

theorem Restores.refl (absent : ∀ a ∈ s.nonExistingAccountsCache, s.state[a]? = none) :
    Restores s s :=
  ⟨rfl, rfl, absent, fun _ => .refl _⟩

/-- Agreement does not depend on what is only read. -/
theorem Agree.of_alike {e e' f : CachedAccount} (same : Alike e e') (agree : Agree e' f) :
    Agree e f where
  alive := agree.alive.trans same.alive
  root := agree.root.trans same.root
  content := agree.content.trans same.content
  dirty changed := agree.dirty (by rw [isDirty, same.unchanged]; exact changed)
  touched changed := by
    rcases agree.touched changed with dirty | filled
    · rw [isDirty, same.unchanged] at dirty
      exact .inl dirty
    · rw [isEmpty_eq, same.content, ← isEmpty_eq] at filled
      exact .inr filled

theorem Agrees.of_sameShown {x y z : Option CachedAccount} (same : SameShown x y)
    (agrees : Agrees y z) : Agrees x z := by
  rcases x with _ | e <;> rcases y with _ | f <;> rcases z with _ | g
  case none.none.none => trivial
  case some.some.some => exact Agree.of_alike same agrees
  all_goals first | exact same.elim | exact agrees.elim

/-- Reading logs nothing and needs nothing taken back. -/
theorem Reverts.of_reads (reads : Reads s t) : Reverts s [] t where
  changeLog := reads.changeLog
  back _ restores :=
    ⟨restores.state.trans reads.state, restores.accountStartNonce.trans reads.accountStartNonce,
      restores.absent, fun a => .of_sameShown (reads.shown a) (restores.shown a)⟩

/-- Changes are taken back in the opposite order. -/
theorem Reverts.trans {earlier later : List Change} (first : Reverts s earlier t)
    (second : Reverts t later u) : Reverts s (later ++ earlier) u where
  changeLog := by rw [second.changeLog, first.changeLog, List.append_assoc]
  back v restores := by
    rw [undoAll, List.foldl_append]
    exact first.back _ (second.back v restores)

end Relations

section Undoing

variable (s : CachedState)

@[simp] theorem state_undo (change : Change) : (s.undo change).state = s.state := by
  cases change <;> rfl

@[simp] theorem accountStartNonce_undo (change : Change) :
    (s.undo change).accountStartNonce = s.accountStartNonce := by
  cases change <;> rfl

@[simp] theorem nonExistingAccountsCache_undo (change : Change) :
    (s.undo change).nonExistingAccountsCache = s.nonExistingAccountsCache := by
  cases change <;> rfl

/-- Taking a change back touches no other address. -/
theorem cache_undo_of_ne {change : Change} {b : Address} (apart : change.address ≠ b) :
    (s.undo change).cache[b]? = s.cache[b]? := by
  cases change <;> simp only [Change.address] at apart <;>
    simp [undo, put, Std.ExtTreeMap.getElem?_insert, Std.ExtTreeMap.getElem?_erase, apart]

/-- At its own address it reverts the entry that is there. -/
theorem cache_undo_self {change : Change} {e : CachedAccount} (other : ¬ change.IsCreate)
    (held : s.cache[change.address]? = some e) :
    (s.undo change).cache[change.address]? = some (change.revert e) := by
  cases change with
  | create a => exact absurd trivial other
  | _ =>
    simp only [Change.address] at held
    simp [undo, put, entry, Change.address, Change.revert, held]

/-- Only the cache changes when changes are taken back. -/
theorem undoAll_frame (changes : List Change) :
    (s.undoAll changes).state = s.state ∧
      (s.undoAll changes).accountStartNonce = s.accountStartNonce ∧
      (s.undoAll changes).nonExistingAccountsCache = s.nonExistingAccountsCache := by
  induction changes generalizing s with
  | nil => exact ⟨rfl, rfl, rfl⟩
  | cons change rest ih =>
    obtain ⟨state, nonce, absent⟩ := ih (s.undo change)
    exact ⟨state.trans (s.state_undo change), nonce.trans (s.accountStartNonce_undo change),
      absent.trans (s.nonExistingAccountsCache_undo change)⟩

variable {changes : List Change}

/-- Changes of one address leave the others alone. -/
theorem cache_undoAll_of_ne {a b : Address} (apart : a ≠ b)
    (only : ∀ change ∈ changes, change.address = a) :
    (s.undoAll changes).cache[b]? = s.cache[b]? := by
  induction changes generalizing s with
  | nil => rfl
  | cons change rest ih =>
    have here : change.address ≠ b := only change (.head _) ▸ apart
    exact (ih (s.undo change) fun c member => only c (.tail _ member)).trans
      (s.cache_undo_of_ne here)

/-- Changes of one address revert its entry one after another. -/
theorem cache_undoAll_self {a : Address} {e : CachedAccount}
    (only : ∀ change ∈ changes, change.address = a ∧ ¬ change.IsCreate)
    (held : s.cache[a]? = some e) :
    (s.undoAll changes).cache[a]? = some (changes.foldl (fun e change => change.revert e) e) := by
  induction changes generalizing s e with
  | nil => exact held
  | cons change rest ih =>
    obtain ⟨rfl, other⟩ := only change (.head _)
    exact ih (s.undo change) (fun c member => only c (.tail _ member))
      (s.cache_undo_self other held)

theorem undoAll_withLog (changes : List Change) (entries : List Change) :
    ({ s with changeLog := entries } : CachedState).undoAll changes =
      { s.undoAll changes with changeLog := entries } := by
  induction changes generalizing s with
  | nil => rfl
  | cons change rest ih =>
    have once : ({ s with changeLog := entries } : CachedState).undo change =
        { s.undo change with changeLog := entries } := by
      cases change <;> rfl
    simp only [undoAll, List.foldl_cons] at ih ⊢
    rw [once]
    exact ih (s.undo change)

/-- A rollback takes back just what was logged since the savepoint. -/
theorem rollback_eq {earlier : List Change} (logged : s.changeLog = changes ++ earlier) :
    s.rollback earlier.length = { s.undoAll changes with changeLog := earlier } := by
  have count : s.changeLog.length - earlier.length = changes.length := by simp [logged]
  rw [rollback, count]
  clear count
  induction changes generalizing s with
  | nil => simp only [List.nil_append] at logged; rw [← logged]; rfl
  | cons change rest ih =>
    have once : s.undoNewest = { s.undo change with changeLog := rest ++ earlier } := by
      simp only [undoNewest, logged, List.cons_append]
    rw [List.length_cons, Function.iterate_succ_apply, once, ih _ rfl, undoAll_withLog]
    rfl

end Undoing

/-- One operation on the state, as it may follow a savepoint. -/
inductive Operation where
  | addBalance (a : Address) (amount : U256)
  | subBalance (a : Address) (value : U256)
  | incNonce (a : Address)
  | setNonce (a : Address) (nonce : U256)
  | createContract (a : Address)
  | setStorage (a : Address) (key value : U256)
  | clearStorage (a : Address)
  | setCode (a : Address) (code : Bytes)
  | addressInUse (a : Address)
  | accountNonemptyAndExisting (a : Address)
  | addressHasCode (a : Address)
  | balance (a : Address)
  | getNonce (a : Address)
  | code (a : Address)
  | storage (a : Address) (key : U256)
  | storageMap (a : Address)

/-- The state after an operation, where a debit that throws has only read. -/
def perform (s : CachedState) : Operation → CachedState
  | .addBalance a amount => s.addBalance a amount
  | .subBalance a value => (s.subBalance a value).2
  | .incNonce a => s.incNonce a
  | .setNonce a nonce => s.setNonce a nonce
  | .createContract a => s.createContract a
  | .setStorage a key value => s.setStorage a key value
  | .clearStorage a => s.clearStorage a
  | .setCode a code => s.setCode a code
  | .addressInUse a => (s.addressInUse a).2
  | .accountNonemptyAndExisting a => (s.accountNonemptyAndExisting a).2
  | .addressHasCode a => (s.addressHasCode a).2
  | .balance a => (s.balance a).2
  | .getNonce a => (s.getNonce a).2
  | .code a => (s.code a).2
  | .storage a key => (s.storage a key).2
  | .storageMap a => (s.storageMap a).2

/-- An account that is there, empty, and not marked as changed. -/
def UntouchedEmpty (shown : Option CachedAccount) : Prop :=
  ∃ e, shown = some e ∧ e.isDirty = false ∧ e.isEmpty = true

instance (shown : Option CachedAccount) : Decidable (UntouchedEmpty shown) :=
  inferInstanceAs (Decidable (∃ e ∈ shown, e.isDirty = false ∧ e.isEmpty = true))

/-- The log has what it takes to take the operation back. -/
def Reversible (s : CachedState) : Operation → Prop
  | .incNonce a => ¬ UntouchedEmpty (s.lookup a)
  | .setNonce a _ => ¬ UntouchedEmpty (s.lookup a)
  | .createContract a => s.lookup a = none
  | .setStorage a _ _ => s.lookup a ≠ none ∧ ¬ UntouchedEmpty (s.lookup a)
  | .clearStorage a => ∃ e, s.cache[a]? = some e ∧
      (e.baseRoot.words.isEmpty = true ∨
        ¬ (e.isDirty = false ∧ e.isEmpty = true) ∧ e.content.storage = e.baseRoot)
  | .setCode a _ => s.lookup a ≠ none
  | _ => True

/-- New code goes to an account whose entry cannot be dropped from the cache. -/
def CodeStays (s : CachedState) : Operation → Prop
  | .setCode a _ => ∃ e, s.lookup a = some e ∧ e.isDirty = true
  | _ => True

section Operations

variable {s t : CachedState}

variable {a : Address} {e e' : CachedAccount}

/-- A changed entry says nothing about the trie. -/
theorem Faithful.put (faithful : s.Faithful) (dirty : e.isDirty = true) : (s.put a e).Faithful := by
  refine ⟨faithful.absent, fun b f held clean => ?_⟩
  simp only [CachedState.put, Std.ExtTreeMap.getElem?_insert,
    Std.LawfulEqCmp.compare_eq_iff_eq] at held
  split at held
  · cases held
    rw [dirty] at clean
    cases clean
  · exact faithful.clean b f held clean

theorem Faithful.log (faithful : s.Faithful) (change : Change) : (s.log change).Faithful :=
  ⟨faithful.absent, faithful.clean⟩

/-- A changed account that shows is in the cache. -/
theorem cached_of_dirty (shown : s.lookup a = some e)
    (dirty : e.isDirty = true) : s.cache[a]? = some e := by
  cases held : s.cache[a]? with
  | some found => simpa [lookup, held] using shown
  | none =>
    simp only [lookup, held, Option.none_or, Option.map_eq_some_iff] at shown
    obtain ⟨stored, -, rfl⟩ := shown
    cases dirty

/-- Changes lead back if they revert the one entry that was changed. -/
theorem Reverts.of_entry {changes : List Change}
    (shown : s.lookup a = some e) (state : t.state = s.state)
    (accountStartNonce : t.accountStartNonce = s.accountStartNonce)
    (changeLog : t.changeLog = changes ++ s.changeLog)
    (shown' : ∀ b, t.lookup b = if a = b then some e' else s.lookup b) (dirty : e'.isDirty = true)
    (only : ∀ change ∈ changes, change.address = a ∧ ¬ change.IsCreate)
    (back : ∀ f, Agree e' f → Agree e (changes.foldl (fun f change => change.revert f) f)) :
    Reverts s changes t := by
  refine ⟨changeLog, fun u restores => ?_⟩
  obtain ⟨kept, nonce, absent⟩ := u.undoAll_frame changes
  refine ⟨kept.trans (restores.state.trans state),
    nonce.trans (restores.accountStartNonce.trans accountStartNonce), ?_, fun b => ?_⟩
  · rw [absent, kept]
    exact restores.absent
  · have agrees := restores.shown b
    rw [shown'] at agrees
    by_cases same : a = b
    · subst same
      rw [if_pos rfl] at agrees
      obtain ⟨f, found, agree⟩ := agrees.of_some
      -- The entry was changed, so it is in the cache, where the log can be applied to it.
      have held := cached_of_dirty found (agree.dirty dirty)
      rw [shown, lookup_of_cached (u.cache_undoAll_self only held)]
      exact back f agree
    · rw [if_neg same] at agrees
      have other := u.cache_undoAll_of_ne same fun change member => (only change member).1
      simpa [lookup, other, kept] using agrees

/-- A creation at the end of the log takes back all that came after it. -/
theorem Reverts.of_created {changes : List Change} (shown : s.lookup a = none)
    (state : t.state = s.state) (accountStartNonce : t.accountStartNonce = s.accountStartNonce)
    (changeLog : t.changeLog = (changes ++ [.create a]) ++ s.changeLog)
    (others : ∀ b, a ≠ b → t.lookup b = s.lookup b)
    (only : ∀ change ∈ changes, change.address = a) :
    Reverts s (changes ++ [.create a]) t := by
  refine ⟨changeLog, fun u restores => ?_⟩
  obtain ⟨kept, nonce, absent⟩ := u.undoAll_frame (changes ++ [.create a])
  have here : ∀ change ∈ changes ++ [.create a], change.address = a := by
    intro change member
    rcases List.mem_append.mp member with earlier | last
    · exact only change earlier
    · rw [List.mem_singleton.mp last]; rfl
  refine ⟨kept.trans (restores.state.trans state),
    nonce.trans (restores.accountStartNonce.trans accountStartNonce), ?_, fun b => ?_⟩
  · rw [absent, kept]
    exact restores.absent
  · by_cases same : a = b
    · subst same
      -- Neither the cache nor the trie has the account any more.
      have erased : (u.undoAll (changes ++ [.create a])).cache[a]? = none := by
        simp [undoAll, undo]
      have missing := (lookup_eq_none.mp shown).2
      rw [shown]
      simp [lookup, erased, kept, restores.state, state, missing, Agrees]
    · have other := u.cache_undoAll_of_ne same here
      have agrees := restores.shown b
      rw [others b same] at agrees
      simpa [lookup, other, kept] using agrees

/-- An account in use is marked as changed or not empty. -/
theorem touched_of_not_untouchedEmpty
    (shown : s.lookup a = some e) (used : ¬ UntouchedEmpty (s.lookup a)) :
    e.isDirty = true ∨ e.isEmpty = false := by
  cases dirty : e.isDirty with
  | true => exact .inl rfl
  | false =>
    cases empty : e.isEmpty with
    | false => exact .inr rfl
    | true => exact absurd ⟨e, shown, dirty, empty⟩ used

/-- Accounts may have come, but none has gone. -/
structure Grows (s t : CachedState) : Prop where
  kept : ∀ a, t.lookup a = none → s.lookup a = none
  listed : Listed s → Listed t

theorem Grows.of_reads (reads : Reads s t) : Grows s t where
  kept _ missing := reads.lookup_eq_none.mp missing
  listed listed a noted := by
    rcases reads.noted a noted with before | missing
    · exact reads.lookup_eq_none.mpr (listed a before)
    · exact reads.lookup_eq_none.mpr missing

theorem Grows.trans {u : CachedState} (first : Grows s t) (second : Grows t u) : Grows s u :=
  ⟨fun a missing => first.kept a (second.kept a missing),
    fun listed => second.listed (first.listed listed)⟩

theorem Grows.put (present : s.lookup a ≠ none) :
    Grows s (s.put a e) where
  kept b missing := by
    rw [lookup_put] at missing
    split at missing
    · cases missing
    · exact missing
  listed listed b noted := by
    have missing := listed b noted
    rw [lookup_put, if_neg (by rintro rfl; exact present missing)]
    exact missing

/-- Two states where the second is reached by changes that lead back. -/
structure Recedes (s t : CachedState) : Prop where
  reverts : ∃ changes, Reverts s changes t
  faithful : t.Faithful
  grows : Grows s t

theorem Recedes.of_reads (reads : Reads s t) : Recedes s t :=
  ⟨⟨[], .of_reads reads⟩, reads.faithful, .of_reads reads⟩

theorem Recedes.trans {u : CachedState} (first : Recedes s t) (second : Recedes t u) :
    Recedes s u := by
  obtain ⟨⟨earlier, there⟩, -, grows⟩ := first
  obtain ⟨⟨later, further⟩, faithful, grows'⟩ := second
  exact ⟨⟨later ++ earlier, there.trans further⟩, faithful, grows.trans grows'⟩

section

variable (faithful : s.Faithful)

include faithful

/-- One logged change of a cached account leads back. -/
theorem Recedes.change {change : Change} (held : s.cache[a]? = some e) (dirty : e'.isDirty = true)
    (here : change.address = a) (other : ¬ change.IsCreate)
    (back : ∀ f, Agree e' f → Agree e (change.revert f)) : Recedes s ((s.put a e').log change) := by
  refine ⟨⟨[change], Reverts.of_entry (lookup_of_cached held) rfl rfl rfl (fun b => by simp) dirty
    ?_ back⟩, (faithful.put dirty).log change, ?_⟩
  · intro c member
    rw [List.mem_singleton.mp member]
    exact ⟨here, other⟩
  · have grows : Grows s (s.put a e') := .put (lookup_ne_none held)
    exact ⟨grows.kept, grows.listed⟩

/-- An entry marked as changed for nothing, where that does no harm. -/
theorem Recedes.touch (held : s.cache[a]? = some e) (dirty : e'.isDirty = true)
    (alive : e'.isAlive = e.isAlive) (root : e'.baseRoot = e.baseRoot)
    (content : e'.content = e.content) (used : e.isDirty = true ∨ e.isEmpty = false) :
    Recedes s (s.put a e') := by
  refine ⟨⟨[], Reverts.of_entry (lookup_of_cached held) rfl rfl rfl (fun b => by simp) dirty
    (by simp) fun f agree => ?_⟩, faithful.put dirty, .put (lookup_ne_none held)⟩
  exact ⟨agree.alive.trans alive, agree.root.trans root, agree.content.trans content,
    fun _ => agree.dirty dirty, fun _ => used⟩

/-- So does the creation of an account where there was none. -/
theorem Recedes.create {new : CachedAccount} (missing : s.lookup a = none)
    (dirty : new.isDirty = true) : Recedes s (s.createAccount a new) := by
  have others : ∀ b, a ≠ b → (s.createAccount a new).lookup b = s.lookup b := by
    intro b apart
    have other := lookup_put s a new b
    rw [if_neg apart] at other
    exact other
  have none : ∀ change ∈ ([] : List Change), change.address = a := fun _ member => by cases member
  have back : Reverts s ([] ++ [.create a]) (s.createAccount a new) :=
    .of_created missing rfl rfl rfl others none
  refine ⟨⟨_, back⟩, ⟨fun b noted => ?_, ?_⟩, fun b absent => ?_, fun listed b noted => ?_⟩
  · exact faithful.absent b (Std.ExtTreeSet.mem_erase.mp noted).2
  · exact (faithful.put dirty).clean
  · by_cases same : a = b
    · rw [← same, missing]
    · rw [← others b same, absent]
  · obtain ⟨apart, before⟩ := Std.ExtTreeSet.mem_erase.mp noted
    rw [others b fun same => apart (Std.LawfulEqCmp.compare_eq_iff_eq.mpr same)]
    exact listed b before

/-- A new nonce is taken back unless the account is empty and unmarked. -/
theorem recedes_setNonce (nonce : U256) (used : ¬ UntouchedEmpty (s.lookup a)) :
    Recedes s (s.setNonce a nonce) := by
  rcases account_cases faithful a with
    ⟨e, t, outcome, shown, reads, held⟩ | ⟨t, outcome, missing, reads⟩
  · simp only [CachedState.setNonce, outcome]
    refine (Recedes.of_reads reads).trans (.change reads.faithful held rfl rfl id fun f agree => ?_)
    refine ⟨agree.alive, agree.root, ?_, fun _ => rfl,
      fun _ => touched_of_not_untouchedEmpty shown used⟩
    rw [Change.revert, content_setNonce, agree.content]
    rfl
  · simp only [CachedState.setNonce, outcome]
    exact (Recedes.of_reads reads).trans
      (.create reads.faithful (reads.lookup_eq_none.mpr missing) rfl)

/-- Counting a transaction overwrites the nonce that shows. -/
theorem incNonce_eq (a : Address) :
    s.incNonce a = s.setNonce a ((s.lookup a).elim s.accountStartNonce (·.nonce) + 1) := by
  rcases account_cases faithful a with
    ⟨e, t, outcome, shown, -, -⟩ | ⟨t, outcome, missing, reads⟩
  · simp only [CachedState.incNonce, CachedState.setNonce, outcome, shown]
    rfl
  · simp only [CachedState.incNonce, CachedState.setNonce, outcome, missing, Option.elim,
      reads.accountStartNonce]

/-- A credit is taken back by the opposite credit. -/
theorem Recedes.credit (held : s.cache[a]? = some e) (used : e.isDirty = true ∨ e.isEmpty = false)
    (amount : U256) : Recedes s ((s.put a (e.addBalance amount)).log (.balance a amount)) := by
  refine .change faithful held rfl rfl id fun f agree => ?_
  refine ⟨agree.alive, agree.root, ?_, fun _ => rfl, fun _ => used⟩
  have balance : f.balance = e.balance + amount := congrArg Account.balance agree.content
  have restored : e.balance + amount + (0 - amount) = e.balance := by simp
  rw [Change.revert, content_addBalance, agree.content, balance, restored]
  rfl

/-- A credit is always taken back, with the touch it may have logged. -/
theorem recedes_addBalance (a : Address) (amount : U256) : Recedes s (s.addBalance a amount) := by
  rcases account_cases faithful a with
    ⟨e, t, outcome, -, reads, held⟩ | ⟨t, outcome, missing, reads⟩
  · refine (Recedes.of_reads reads).trans ?_
    have faithful := reads.faithful
    have unchanged : (e.addBalance 0).content = e.content := by
      rw [content_addBalance, add_zero]
      rfl
    simp only [CachedState.addBalance, outcome]
    by_cases touched : (!e.isDirty && e.isEmpty) = true
    · -- The touch is logged below the credit, so it is taken back last.
      have clean : e.isDirty = false := by simp_all
      have first : Recedes t ((t.put a (e.addBalance 0)).log (.touch a)) := by
        refine .change faithful held rfl rfl id fun f agree => ?_
        exact ⟨agree.alive, agree.root, agree.content.trans unchanged, by simp [clean],
          fun changed => by cases changed⟩
      rw [if_pos touched]
      split
      · next zero => subst zero; exact first
      · have credit := Recedes.credit (e := e.addBalance 0) first.faithful
          (a := a) (by simp [put, log]) (.inl rfl) amount
        have together : (e.addBalance 0).addBalance amount = e.addBalance amount := by
          simp [CachedAccount.addBalance]
        rw [together] at credit
        have whole : Recedes t ((((t.log (.touch a)).put a (e.addBalance 0)).put a
            (e.addBalance amount)).log (.balance a amount)) := first.trans credit
        rwa [put_put] at whole
    · have used : e.isDirty = true ∨ e.isEmpty = false := by
        cases dirty : e.isDirty <;> simp_all
      rw [if_neg touched]
      split
      · next zero => subst zero; exact .touch faithful held rfl rfl rfl unchanged used
      · exact .credit faithful held used amount
  · refine (Recedes.of_reads reads).trans ?_
    have absent := reads.lookup_eq_none.mpr missing
    simp only [CachedState.addBalance, outcome]
    split
    · exact .create reads.faithful absent rfl
    · have first : Recedes t (t.createAccount a (.made t.accountStartNonce 0)) :=
        .create reads.faithful absent rfl
      have credit := Recedes.credit (e := .made t.accountStartNonce 0) first.faithful
        (a := a) (by simp [createAccount, put]) (.inl rfl) amount
      have together : (made t.accountStartNonce 0).addBalance amount =
          made t.accountStartNonce amount := by
        simp [CachedAccount.addBalance, made]
      rw [together] at credit
      have whole : Recedes t ((({ t with
          nonExistingAccountsCache := t.nonExistingAccountsCache.erase a
          changeLog := .create a :: t.changeLog } : CachedState).put a
            (made t.accountStartNonce 0)).put a (made t.accountStartNonce amount) |>.log
              (.balance a amount)) := first.trans credit
      rw [put_put] at whole
      exact whole

/-- So is a debit, whether it throws or not. -/
theorem recedes_subBalance (a : Address) (value : U256) : Recedes s (s.subBalance a value).2 := by
  unfold subBalance
  split
  · exact .of_reads (.refl faithful)
  · rcases account_cases faithful a with ⟨e, t, outcome, -, reads, -⟩ | ⟨t, outcome, -, reads⟩
    · simp only [outcome]
      split
      · exact .of_reads reads
      · exact (Recedes.of_reads reads).trans (recedes_addBalance reads.faithful a _)
    · simp only [outcome]
      exact .of_reads reads

/-- A written word is taken back where there is an account in use. -/
theorem recedes_setStorage (key value : U256) (present : s.lookup a ≠ none)
    (used : ¬ UntouchedEmpty (s.lookup a)) : Recedes s (s.setStorage a key value) := by
  obtain ⟨old, reads, cached⟩ := storage_spec faithful a key
  obtain ⟨e, shown⟩ := Option.ne_none_iff_exists'.mp present
  rw [shown] at old cached
  rcases outcome : s.storage a key with ⟨word, t⟩
  rw [outcome] at old reads cached
  obtain ⟨f, held, same⟩ := cached.of_some
  have entered : (t.log (.storage a key word)).entry a = f := by simp [entry, log, held]
  simp only [CachedState.setStorage, outcome, entered]
  refine (Recedes.of_reads reads).trans (.change reads.faithful held rfl rfl id fun g agree => ?_)
  refine ⟨agree.alive, agree.root, ?_, fun _ => rfl, fun _ => ?_⟩
  · -- Writing the old word over the new one gives the storage as it was.
    have word_eq : word = f.content.storage.read key := by
      rw [same.content]
      exact old
    have twice : ((f.content.storage.write key value).write key word) = f.content.storage := by
      refine Storage.ext fun other => ?_
      simp only [Storage.read_write]
      split
      · next here => rw [← here, word_eq]
      · rfl
    rw [Change.revert, content_setStorage, agree.content, content_setStorage]
    simp only [twice]
  · have before := touched_of_not_untouchedEmpty shown used
    rw [isDirty, same.unchanged, isEmpty_eq, same.content, ← isEmpty_eq]
    exact before

end

/-- Storage is cleared only where a trie is under the cached account. -/
theorem clearStorage_eq (held : s.cache[a]? = some e) : s.clearStorage a =
    if e.baseRoot.words.isEmpty = true then s
    else (s.put a e.clearStorage).log (.storageRoot a e.baseRoot) := by
  have entered : s.entry a = e := by simp [entry, held]
  have same : s.put a e = s := by
    have unchanged : s.cache.insert a e = s.cache := by
      apply Std.ExtTreeMap.ext_getElem?
      intro b
      rw [Std.ExtTreeMap.getElem?_insert]
      split
      · next here => rw [← Std.LawfulEqCmp.compare_eq_iff_eq.mp here, held]
      · rfl
    simp only [put, unchanged]
  simp only [CachedState.clearStorage, entered, same]

/-- A cleared storage comes back where all its words were committed. -/
theorem recedes_clearStorage (faithful : s.Faithful)
    (reversible : Reversible s (.clearStorage a)) : Recedes s (s.clearStorage a) := by
  obtain ⟨e, held, clears⟩ := reversible
  rw [clearStorage_eq held]
  split
  · -- A storage root that is empty is left alone.
    exact .of_reads (.refl faithful)
  · next filled =>
    obtain ⟨used, committed⟩ := clears.resolve_left filled
    refine .change faithful held rfl rfl id fun f agree =>
      ⟨agree.alive, rfl, ?_, fun _ => rfl, fun _ => ?_⟩
    · rw [Change.revert, content_setStorageRoot, agree.content, CachedAccount.clearStorage,
        content_setStorageRoot, ← committed]
    · cases dirty : e.isDirty <;> cases empty : e.isEmpty <;> simp_all

/-- New code is taken back from an account that was changed before. -/
theorem recedes_setCode (faithful : s.Faithful) (code : Bytes)
    (shown : s.lookup a = some e) (dirty : e.isDirty = true) : Recedes s (s.setCode a code) := by
  obtain ⟨t, outcome, reads, held⟩ := account_of_some faithful shown
  have entered : (t.log (.code a e.code)).entry a = e := by simp [entry, log, held]
  simp only [CachedState.setCode, CachedState.code, outcome, Option.elim, entered]
  refine (Recedes.of_reads reads).trans (.change reads.faithful held dirty rfl id fun f agree => ?_)
  refine ⟨agree.alive, agree.root, ?_, fun _ => agree.dirty dirty, fun _ => .inl dirty⟩
  rw [Change.revert, content_setCode, agree.content]
  rfl

/-- Every reversible operation leads back. -/
theorem recedes_perform (faithful : s.Faithful) {op : Operation} (reversible : Reversible s op)
    (stays : CodeStays s op) : Recedes s (s.perform op) := by
  cases op with
  | addBalance a amount => exact recedes_addBalance faithful a amount
  | subBalance a value => exact recedes_subBalance faithful a value
  | incNonce a =>
    rw [perform, incNonce_eq faithful]
    exact recedes_setNonce faithful _ reversible
  | setNonce a nonce => exact recedes_setNonce faithful nonce reversible
  | createContract a => exact .create faithful reversible rfl
  | setStorage a key value => exact recedes_setStorage faithful key value reversible.1 reversible.2
  | clearStorage a => exact recedes_clearStorage faithful reversible
  | setCode a code =>
    obtain ⟨e, shown, dirty⟩ := stays
    exact recedes_setCode faithful code shown dirty
  | storage a key => exact .of_reads (storage_spec faithful a key).2.1
  | _ a => exact .of_reads (account_spec faithful a).2.1

end Operations

/-- The state after several operations. -/
def performAll (s : CachedState) (ops : List Operation) : CachedState := ops.foldl perform s

/-- Every operation of a run can be taken back where it is made. -/
def ReversibleRun (s : CachedState) : List Operation → Prop
  | [] => True
  | op :: ops => Reversible s op ∧ CodeStays s op ∧ ReversibleRun (s.perform op) ops

/-- Two states read the same at every address and commit to the same trie. -/
structure Indistinguishable (s u : CachedState) : Prop where
  addressInUse : ∀ a, (u.addressInUse a).1 = (s.addressInUse a).1
  balance : ∀ a, (u.balance a).1 = (s.balance a).1
  getNonce : ∀ a, (u.getNonce a).1 = (s.getNonce a).1
  code : ∀ a, (u.code a).1 = (s.code a).1
  storage : ∀ a key, (u.storage a key).1 = (s.storage a key).1
  commit : ∀ behaviour, (u.commit behaviour).state = (s.commit behaviour).state

section Whole

variable {s t u : CachedState}

/-- So does every run of reversible operations. -/
theorem recedes_performAll (faithful : s.Faithful) {ops : List Operation}
    (reversible : ReversibleRun s ops) : Recedes s (s.performAll ops) := by
  induction ops generalizing s with
  | nil => exact .of_reads (.refl faithful)
  | cons op ops ih =>
    obtain ⟨here, stays, later⟩ := reversible
    have first := recedes_perform faithful here stays
    exact first.trans (ih first.faithful later)

/-- Where changes lead back, a rollback restores the state. -/
theorem Recedes.rollback (recedes : Recedes s t) : Restores s (t.rollback s.savepoint) := by
  obtain ⟨⟨changes, reverts⟩, faithful, -⟩ := recedes
  obtain ⟨state, nonce, absent, shown⟩ := reverts.back t (.refl faithful.absent)
  rw [savepoint, t.rollback_eq reverts.changeLog]
  exact ⟨state, nonce, absent, shown⟩

theorem fst_account (absent : ∀ a ∈ s.nonExistingAccountsCache, s.state[a]? = none)
    (a : Address) : (s.account a).1 = s.lookup a := by
  unfold account lookup
  cases held : s.cache[a]? with
  | some found => rfl
  | none =>
    simp only [Option.none_or]
    split
    · next noted => rw [absent a noted]; rfl
    · cases s.state[a]? <;> rfl

theorem fst_storage (absent : ∀ a ∈ s.nonExistingAccountsCache, s.state[a]? = none)
    (a : Address) (key : U256) :
    (s.storage a key).1 = (s.lookup a).elim 0 (·.content.storage.read key) := by
  rw [← fst_account absent]
  unfold storage
  split
  · next outcome => rw [outcome]; rfl
  · next e t outcome =>
    rw [outcome]
    split <;> next word => simp [content, word]

variable {x y : Option CachedAccount} {a : Address}

/-- Entries that agree answer alike whatever depends on the content. -/
theorem Agrees.elim_eq {α : Type} (agrees : Agrees x y)
    {g : CachedAccount → α} (missing : α) (same : ∀ e f, f.content = e.content → g f = g e) :
    y.elim missing g = x.elim missing g := by
  rcases x with _ | e <;> rcases y with _ | f
  case none.none => rfl
  case some.some => exact same e f (Agree.content agrees)
  all_goals exact False.elim agrees

theorem Agrees.isSome_eq (agrees : Agrees x y) :
    y.isSome = x.isSome := by
  rcases x with _ | e <;> rcases y with _ | f
  case none.none | some.some => rfl
  all_goals exact False.elim agrees

/-- Entries that agree settle to the same, given that an unchanged entry is the stored one. -/
theorem Agrees.settled {stored : Option Account} (agrees : Agrees x y) (behaviour : CommitBehaviour)
    (clean : ∀ e, x = some e → e.isDirty = false →
      e.isAlive = true ∧ stored = some e.content) :
    settled behaviour stored y = settled behaviour stored x := by
  rcases x with _ | e <;> rcases y with _ | f
  case none.none => rfl
  case none.some => exact agrees.elim
  case some.none => exact agrees.elim
  case some.some =>
    have agree : Agree e f := agrees
    have empty : f.isEmpty = e.isEmpty := by rw [isEmpty_eq, agree.content, ← isEmpty_eq]
    cases dirty : e.isDirty with
    | true =>
      simp [CachedState.settled, dirty, agree.dirty dirty, agree.alive, agree.content, empty]
    | false =>
      obtain ⟨alive, there⟩ := clean e rfl dirty
      cases dirty' : f.isDirty with
      | false => simp [CachedState.settled, dirty, dirty']
      | true =>
        -- The entry is marked as changed for nothing and written as it is stored.
        have filled : e.isEmpty = false :=
          (agree.touched dirty').resolve_left (by simp [dirty])
        simp [CachedState.settled, dirty, dirty', agree.alive, agree.content, empty, filled, alive,
          there]

/-- An unchanged account is alive and stored as it shows. -/
theorem Faithful.shown (faithful : s.Faithful) {e : CachedAccount}
    (shown : s.lookup a = some e) (clean : e.isDirty = false) :
    e.isAlive = true ∧ s.state[a]? = some e.content := by
  obtain ⟨stored, there, alike⟩ := faithful.alike shown clean
  refine ⟨alike.alive, ?_⟩
  rw [there, alike.content, content_loaded]

/-- A restored state reads and commits like the old one. -/
theorem Restores.indistinguishable (faithful : s.Faithful) (restores : Restores s u) :
    Indistinguishable s u := by
  have found : ∀ a, Agrees (s.account a).1 (u.account a).1 := fun a => by
    rw [fst_account faithful.absent, fst_account restores.absent]
    exact restores.shown a
  refine ⟨fun a => (found a).isSome_eq,
    fun a => (found a).elim_eq _ fun _ _ same => congrArg Account.balance same, fun a => ?_,
    fun a => (found a).elim_eq _ fun _ _ same => congrArg Account.code same, fun a key => ?_,
    fun behaviour => ?_⟩
  · simp only [CachedState.getNonce, restores.accountStartNonce]
    exact (found a).elim_eq _ fun _ _ same => congrArg Account.nonce same
  · rw [fst_storage faithful.absent, fst_storage restores.absent]
    exact (restores.shown a).elim_eq _ fun _ _ same => by rw [same]
  · apply Std.ExtTreeMap.ext_getElem?
    intro a
    rw [← settled_lookup, ← settled_lookup, restores.state]
    exact (restores.shown a).settled behaviour fun e shown clean => faithful.shown shown clean

/-- An entry left where there was no account can be seen. -/
theorem not_indistinguishable_of_entered {f : CachedAccount}
    (faithful : s.Faithful) (missing : s.lookup a = none) (held : u.cache[a]? = some f) :
    ¬ Indistinguishable s u := by
  intro same
  have inUse := same.addressInUse a
  simp only [CachedState.addressInUse, fst_account faithful.absent, missing] at inUse
  simp [account, held] at inUse

/-- So can the mark of a change on an empty account. -/
theorem not_indistinguishable_of_touched {f : CachedAccount}
    (faithful : s.Faithful) (untouched : UntouchedEmpty (s.lookup a))
    (held : u.cache[a]? = some f) (dirty : f.isDirty = true) (empty : f.isEmpty = true) :
    ¬ Indistinguishable s u := by
  intro same
  obtain ⟨e, shown, clean, -⟩ := untouched
  have removed : (u.commit .removeEmptyAccounts).state[a]? = none := by
    rw [getElem?_commit, held]
    simp [settled, dirty, empty]
  rw [same.commit, ← settled_lookup, shown] at removed
  simp [settled, clean, (faithful.shown shown clean).2] at removed

/-- Rolling back one logged change leaves the reverted entry. -/
theorem cache_rollback_log {e : CachedAccount} {change : Change}
    (logged : t.changeLog = s.changeLog) (here : change.address = a) (other : ¬ change.IsCreate) :
    (((t.put a e).log change).rollback s.savepoint).cache[a]? = some (change.revert e) := by
  have changes : ((t.put a e).log change).changeLog = [change] ++ s.changeLog := by
    simp [log, put, logged]
  rw [savepoint, rollback_eq _ changes]
  refine cache_undoAll_self _ (fun c member => ?_) (by simp [log, put])
  rw [List.mem_singleton.mp member]
  exact ⟨here, other⟩

section

variable (faithful : s.Faithful)

include faithful

/-- A new nonce of an unmarked empty account leaves its mark. -/
theorem not_indistinguishable_setNonce (nonce : U256) (untouched : UntouchedEmpty (s.lookup a)) :
    ¬ Indistinguishable s ((s.setNonce a nonce).rollback s.savepoint) := by
  obtain ⟨e, shown, clean, empty⟩ := untouched
  obtain ⟨t, outcome, reads, held⟩ := account_of_some faithful shown
  simp only [CachedState.setNonce, outcome]
  have left : (((t.put a (e.setNonce nonce)).log (.nonce a e.nonce)).rollback
      s.savepoint).cache[a]? = some _ := cache_rollback_log reads.changeLog rfl id
  exact not_indistinguishable_of_touched faithful ⟨e, shown, clean, empty⟩ left rfl empty

/-- A word written to no account, or an unmarked empty one, leaves a trace. -/
theorem not_indistinguishable_setStorage (key value : U256)
    (bad : s.lookup a = none ∨ UntouchedEmpty (s.lookup a)) :
    ¬ Indistinguishable s ((s.setStorage a key value).rollback s.savepoint) := by
  obtain ⟨-, reads, cached⟩ := storage_spec faithful a key
  have left : ((((s.storage a key).2.put a (((s.storage a key).2.entry a).setStorage key value)).log
      (.storage a key (s.storage a key).1)).rollback s.savepoint).cache[a]? = some _ :=
    cache_rollback_log reads.changeLog rfl id
  rcases bad with missing | ⟨e, shown, clean, empty⟩
  · exact not_indistinguishable_of_entered faithful missing left
  · refine not_indistinguishable_of_touched faithful ⟨e, shown, clean, empty⟩ left rfl ?_
    -- Neither reading a word nor writing one changes whether the account is empty.
    rw [shown] at cached
    obtain ⟨f, held, alike⟩ := cached.of_some
    have entered : (s.storage a key).2.entry a = f := by rw [entry, held]; rfl
    rw [entered]
    change f.isEmpty = true
    rw [isEmpty_eq, alike.content, ← isEmpty_eq]
    exact empty

/-- Clearing an account that is not in the cache leaves a dead account in its place. -/
theorem not_indistinguishable_clearStorage_uncached (uncached : s.cache[a]? = none) :
    ¬ Indistinguishable s ((s.clearStorage a).rollback s.savepoint) := by
  have entered : s.entry a = {} := by rw [entry, uncached]; rfl
  have cleared : s.clearStorage a = s.put a {} := by
    have inserted : (s.put a {}).entry a = {} := by simp [entry, put]
    have bare : Storage.empty.words.isEmpty = true := by simp [Storage.empty]
    simp only [CachedState.clearStorage, entered, inserted, bare, if_true]
  have left : ((s.clearStorage a).rollback s.savepoint).cache[a]? = some {} := by
    have same : s.savepoint = (s.put a {}).changeLog.length := rfl
    rw [cleared, rollback, same, Nat.sub_self]
    simp [put]
  intro same
  cases there : s.state[a]? with
  | none =>
    exact not_indistinguishable_of_entered faithful (lookup_eq_none.mpr ⟨uncached, there⟩) left same
  | some stored =>
    have removed : (((s.clearStorage a).rollback s.savepoint).commit .keepEmptyAccounts).state[a]? =
        none := by
      rw [getElem?_commit, left]
      rfl
    rw [same.commit, getElem?_commit, uncached, there] at removed
    cases removed

/-- Clearing a storage leaves a trace where it is not reversible. -/
theorem not_indistinguishable_clearStorage (bad : ¬ Reversible s (.clearStorage a)) :
    ¬ Indistinguishable s ((s.clearStorage a).rollback s.savepoint) := by
  cases held : s.cache[a]? with
  | none => exact not_indistinguishable_clearStorage_uncached faithful held
  | some e =>
    have filled : ¬ e.baseRoot.words.isEmpty = true := fun bare => bad ⟨e, held, .inl bare⟩
    have left : (((s.put a e.clearStorage).log (.storageRoot a e.baseRoot)).rollback
        s.savepoint).cache[a]? = some _ := cache_rollback_log rfl rfl id
    rw [clearStorage_eq held, if_neg filled]
    by_cases untouched : e.isDirty = false ∧ e.isEmpty = true
    · exact not_indistinguishable_of_touched faithful
        ⟨e, lookup_of_cached held, untouched.1, untouched.2⟩ left rfl untouched.2
    · -- Some word was not committed, and the old root does not have it.
      intro same
      refine bad ⟨e, held, .inr ⟨untouched, Storage.ext fun key => ?_⟩⟩
      have words := same.storage a key
      rw [fst_storage faithful.absent, lookup_of_cached held] at words
      simp only [storage, account, left, Change.revert, CachedAccount.setStorageRoot,
        Std.ExtTreeMap.getElem?_empty, Option.elim] at words
      exact words.symm

/-- Code for an address without an account leaves one there. -/
theorem not_indistinguishable_setCode (code : Bytes) (missing : s.lookup a = none) :
    ¬ Indistinguishable s ((s.setCode a code).rollback s.savepoint) := by
  obtain ⟨-, reads, -⟩ := account_spec faithful a
  have left : (((((s.code a).2.put a (((s.code a).2.entry a).setCode code))).log
      (.code a (s.code a).1)).rollback s.savepoint).cache[a]? = some _ :=
    cache_rollback_log reads.changeLog rfl id
  exact not_indistinguishable_of_entered faithful missing left

/-- New code for an account that is there is taken back where nothing comes in between. -/
theorem indistinguishable_setCode (code : Bytes) (present : s.lookup a ≠ none) :
    Indistinguishable s ((s.setCode a code).rollback s.savepoint) := by
  obtain ⟨e, shown⟩ := Option.ne_none_iff_exists'.mp present
  obtain ⟨t, outcome, reads, held⟩ := account_of_some faithful shown
  have entered : (t.log (.code a e.code)).entry a = e := by simp [entry, log, held]
  have set : s.setCode a code = (t.put a (e.setCode code)).log (.code a e.code) := by
    simp only [CachedState.setCode, CachedState.code, outcome, Option.elim, entered]
    rfl
  have changes : ((t.put a (e.setCode code)).log (.code a e.code)).changeLog =
      [.code a e.code] ++ s.changeLog := by
    simp [log, put, reads.changeLog]
  have back : (e.setCode code).setCode e.code = e := rfl
  rw [set, savepoint, rollback_eq _ changes]
  refine Restores.indistinguishable faithful ⟨reads.state, reads.accountStartNonce,
    reads.faithful.absent, fun b => ?_⟩
  have shown' : ({ ((t.put a (e.setCode code)).log (.code a e.code)).undoAll [.code a e.code] with
      changeLog := s.changeLog } : CachedState).lookup b = (t.put a e).lookup b := by
    have entered' : ((t.put a (e.setCode code)).log (.code a e.code)).entry a =
        e.setCode code := by
      simp [entry, log, put]
    have undone : ((t.put a (e.setCode code)).log (.code a e.code)).undoAll [.code a e.code] =
        (t.put a e).log (.code a e.code) := by
      simp only [undoAll, List.foldl_cons, List.foldl_nil, undo, entered', back]
      exact congrArg (fun s : CachedState => s.log (.code a e.code)) (put_put t a _ _)
    rw [undone]
    rfl
  rw [shown', lookup_put]
  split
  · next here =>
    subst here
    rw [shown]
    exact Agree.refl e
  · exact .of_sameShown (reads.shown b) (.refl _)

/-- Rolling back right after one operation restores the state exactly where that operation can
be taken back. -/
theorem indistinguishable_iff_reversible {op : Operation}
    (unused : ∀ a, op = .createContract a → s.lookup a = none) :
    Indistinguishable s ((s.perform op).rollback s.savepoint) ↔ Reversible s op := by
  constructor
  · intro same
    cases op with
    | incNonce a =>
      intro untouched
      rw [perform, incNonce_eq faithful] at same
      exact not_indistinguishable_setNonce faithful _ untouched same
    | setNonce a nonce =>
      exact fun untouched => not_indistinguishable_setNonce faithful nonce untouched same
    | createContract a => exact unused a rfl
    | setStorage a key value =>
      exact ⟨fun missing => not_indistinguishable_setStorage faithful key value (.inl missing) same,
        fun untouched =>
          not_indistinguishable_setStorage faithful key value (.inr untouched) same⟩
    | clearStorage a =>
      by_contra bad
      exact not_indistinguishable_clearStorage faithful bad same
    | setCode a code =>
      exact fun missing => not_indistinguishable_setCode faithful code missing same
    | _ => trivial
  · intro reversible
    have recedes : CodeStays s op → Indistinguishable s ((s.perform op).rollback s.savepoint) :=
      fun stays => (recedes_perform faithful reversible stays).rollback.indistinguishable faithful
    cases op with
    | setCode a code => exact indistinguishable_setCode faithful code reversible
    | _ => exact recedes trivial

end

/-- A rollback to a savepoint restores the balance, nonce, code, storage and existence of every
account and the root of a later commit, after every run of operations that can each be taken
back; and a single operation is taken back only if it is such an operation. -/
theorem rollback_restores (faithful : s.Faithful) :
    (∀ ops, ReversibleRun s ops →
      Indistinguishable s ((s.performAll ops).rollback s.savepoint)) ∧
    ∀ op, (∀ a, op = .createContract a → s.lookup a = none) →
      (Indistinguishable s ((s.perform op).rollback s.savepoint) ↔ Reversible s op) :=
  ⟨fun _ reversible =>
      (recedes_performAll faithful reversible).rollback.indistinguishable faithful,
    fun _ unused => indistinguishable_iff_reversible faithful unused⟩

end Whole

/-- In a state with a word that was not committed, another write to that word, a counted transaction
and the credit of a new account can be taken back. -/
theorem rollback_restores_uncommitted :
    let contract : Account := ⟨1, 0, [0], Storage.empty.write 1 5⟩
    let base : CachedState :=
      { state := (∅ : Std.ExtTreeMap Address Account).insert 8 contract
        accountStartNonce := 0, engine := fun _ => 0 }
    let s := base.perform (.setStorage 8 2 7)
    let ops := [.setStorage 8 2 9, .incNonce 8, .addBalance 4 5]
    (s.storage 8 2).1 = 7 ∧ ((s.performAll ops).storage 8 2).1 = 9 ∧
      Indistinguishable s ((s.performAll ops).rollback s.savepoint) := by
  intro contract base s ops
  have faithful : base.Faithful :=
    ⟨fun a noted => by simp [base] at noted, fun a e held => by simp [base] at held⟩
  have written : Reversible base (.setStorage 8 2 7) := ⟨by decide +kernel, by decide +kernel⟩
  have faithful' : s.Faithful := (recedes_perform faithful written trivial).faithful
  have again : Reversible s (.setStorage 8 2 9) := ⟨by decide +kernel, by decide +kernel⟩
  have counted : ¬ UntouchedEmpty ((s.perform (.setStorage 8 2 9)).lookup 8) := by decide +kernel
  exact ⟨by decide +kernel, by decide +kernel, (rollback_restores faithful').1 ops
    ⟨again, trivial, counted, trivial, trivial, trivial, trivial⟩⟩

/-- Three rollbacks that do not restore: a cleared storage comes back without the word that was
not committed, a write to an unused address leaves an account there, and a counted transaction
of an empty account lets a commit remove it. -/
theorem rollback_leaves_traces :
    let contract : Account := ⟨1, 0, [0], Storage.empty.write 1 5⟩
    let s : CachedState := CachedState.setStorage
      { state := (∅ : Std.ExtTreeMap Address Account).insert 8 contract |>.insert 9 (.fresh 0 0),
        accountStartNonce := 0, engine := fun _ => 0 } 8 2 7
    ((s.storage 8 2).1 = 7 ∧
      (((s.perform (.clearStorage 8)).rollback s.savepoint).storage 8 2).1 = 0) ∧
    ((s.addressInUse 4).1 = false ∧
      (((s.perform (.setStorage 4 1 1)).rollback s.savepoint).addressInUse 4).1 = true) ∧
    ((s.commit .removeEmptyAccounts).state.contains 9 = true ∧
      (((s.perform (.incNonce 9)).rollback s.savepoint).commit
        .removeEmptyAccounts).state.contains 9 = false) := by
  decide +kernel

end CachedState

end Etiam
