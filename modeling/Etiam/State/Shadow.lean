import Etiam.State.Program

/-! Two states that look alike to every transaction: one that was committed after each
transaction, and one that carries the changes of all of them in its cache. -/

namespace Etiam

namespace CachedState

open CachedAccount

/-- The state shows one account anew and all the others as before. -/
def Shows (s : CachedState) (a : Address) (e : CachedAccount) (s' : CachedState) : Prop :=
  ∀ b, SameShown (if a = b then some e else s.lookup b) (s'.lookup b)

section Showing

variable {s t : CachedState} {a : Address} {e : CachedAccount}

/-- A change after reading shows as if nothing had been read. -/
theorem Shows.of_reads {t' : CachedState} (reads : Reads s t)
    (shown : ∀ b, t'.lookup b = if a = b then some e else t.lookup b) : Shows s a e t' := by
  intro b
  rw [shown]
  split
  · exact .refl _
  · exact reads.shown b

section

variable (faithful : s.Faithful)

include faithful

/-- A credit shows at its account. -/
theorem shows_addBalance (shown : s.lookup a = some e) (amount : U256) :
    Shows s a (e.addBalance amount) (s.addBalance a amount) := by
  obtain ⟨t, outcome, reads, -⟩ := account_of_some faithful shown
  refine .of_reads reads fun b => ?_
  simp only [CachedState.addBalance, outcome]
  split <;> split <;> simp

/-- It makes an account where there is none. -/
theorem shows_addBalance_of_none (missing : s.lookup a = none) (amount : U256) :
    Shows s a (made s.accountStartNonce amount) (s.addBalance a amount) := by
  obtain ⟨t, outcome, reads⟩ := account_of_none faithful missing
  refine .of_reads reads fun b => ?_
  simp only [CachedState.addBalance, outcome, reads.accountStartNonce]
  split
  · exact lookup_put t a _ b
  · exact lookup_put t a _ b

/-- A new nonce shows at its account. -/
theorem shows_setNonce (shown : s.lookup a = some e) (nonce : U256) :
    Shows s a (e.setNonce nonce) (s.setNonce a nonce) := by
  obtain ⟨t, outcome, reads, -⟩ := account_of_some faithful shown
  refine .of_reads reads fun b => ?_
  simp only [CachedState.setNonce, outcome, lookup_log, lookup_put]

/-- It makes an account where there is none. -/
theorem shows_setNonce_of_none (missing : s.lookup a = none) (nonce : U256) :
    Shows s a (made nonce 0) (s.setNonce a nonce) := by
  obtain ⟨t, outcome, reads⟩ := account_of_none faithful missing
  refine .of_reads reads fun b => ?_
  simp only [CachedState.setNonce, outcome]
  exact lookup_put t a _ b

theorem shows_createContract : Shows s a (made s.accountStartNonce 0) (s.createContract a) :=
  .of_reads (.refl faithful) fun b => lookup_put s a _ b

/-- A written word shows at its account. -/
theorem shows_setStorage (shown : s.lookup a = some e) (key value : U256) :
    Shows s a (e.setStorage key value) (s.setStorage a key value) := by
  obtain ⟨-, reads, cached⟩ := storage_spec faithful a key
  rcases outcome : s.storage a key with ⟨word, t⟩
  rw [outcome] at reads cached
  rw [shown] at cached
  intro b
  obtain ⟨f, held, alike⟩ := cached.of_some
  have entered : (t.log (.storage a key word)).entry a = f := by simp [entry, log, held]
  simp only [CachedState.setStorage, outcome, entered, lookup_put, lookup_log]
  split
  · refine ⟨alike.alive, rfl, alike.root, ?_⟩
    rw [content_setStorage, content_setStorage, alike.content]
  · exact reads.shown b

/-- New code shows at its account. -/
theorem shows_setCode (shown : s.lookup a = some e) (code : Bytes) :
    Shows s a (e.setCode code) (s.setCode a code) := by
  obtain ⟨t, outcome, reads, held⟩ := account_of_some faithful shown
  refine .of_reads reads fun b => ?_
  have entered : (t.log (.code a e.code)).entry a = e := by simp [entry, log, held]
  simp only [CachedState.setCode, CachedState.code, outcome, Option.elim, entered, lookup_put,
    lookup_log]

end

/-- A cleared storage shows at its account. -/
theorem shows_clearStorage (held : s.cache[a]? = some e)
    (filled : ¬ e.baseRoot.words.isEmpty = true) : Shows s a e.clearStorage (s.clearStorage a) := by
  intro b
  rw [clearStorage_eq held, if_neg filled, lookup_log, lookup_put]
  exact .refl _

end Showing

/-- Entries that no transaction can tell apart and that a commit writes alike. -/
structure Matches (e f : CachedAccount) : Prop where
  alive : f.isAlive = e.isAlive
  content : f.content = e.content
  /-- The mark of a change matters only for an account that is empty. -/
  dirty : e.isEmpty = true → f.isDirty = e.isDirty

/-- The account is going to be removed by the next commit that removes empty accounts. -/
def Doomed (e : CachedAccount) : Prop :=
  e.isDirty = true ∧ (e.isEmpty = true ∨ e.isAlive = false)

/-- What one state shows where another shows something; there is a gap between them where the
second was committed more often, and shows none of the accounts that were removed. -/
def Shadowed (gap : Prop) : Option CachedAccount → Option CachedAccount → Prop
  | none, none => True
  | some e, some f => Matches e f
  | some e, none => gap ∧ Doomed e
  | none, some _ => False

/-- One state stands for another, which may have been committed more often. -/
structure Shadows (gap : Prop) (c r : CachedState) : Prop where
  faithful : c.Faithful
  faithful' : r.Faithful
  listed : c.Listed
  listed' : r.Listed
  accountStartNonce : r.accountStartNonce = c.accountStartNonce
  shown : ∀ a, Shadowed gap (c.lookup a) (r.lookup a)

section Matching

variable {e f : CachedAccount}

theorem Matches.isEmpty_eq (same : Matches e f) : f.isEmpty = e.isEmpty := by
  rw [CachedAccount.isEmpty_eq, same.content, ← CachedAccount.isEmpty_eq]

/-- Matching does not depend on what is only read. -/
theorem Matches.of_alike {e' f' : CachedAccount} (same : Matches e f) (left : Alike e e')
    (right : Alike f f') : Matches e' f' where
  alive := right.alive.trans (same.alive.trans left.alive.symm)
  content := right.content.trans (same.content.trans left.content.symm)
  dirty empty := by
    have empty' : e.isEmpty = true := by
      rw [CachedAccount.isEmpty_eq, left.content, ← CachedAccount.isEmpty_eq] at empty
      exact empty
    have marked := same.dirty empty'
    simp only [isDirty, left.unchanged, right.unchanged] at marked ⊢
    exact marked

theorem Doomed.of_alike (doomed : Doomed e) (alike : Alike e f) : Doomed f := by
  obtain ⟨dirty, gone⟩ := doomed
  refine ⟨by rw [isDirty, alike.unchanged]; exact dirty, ?_⟩
  rw [CachedAccount.isEmpty_eq, alike.content, ← CachedAccount.isEmpty_eq, alike.alive]
  exact gone

/-- Nor does shadowing. -/
theorem Shadowed.of_sameShown {gap : Prop} {x x' y y' : Option CachedAccount}
    (shadowed : Shadowed gap x y) (left : SameShown x x') (right : SameShown y y') :
    Shadowed gap x' y' := by
  rcases x with _ | e <;> rcases x' with _ | e' <;> rcases y with _ | f <;> rcases y' with _ | f'
  case none.none.none.none => trivial
  case some.some.some.some => exact Matches.of_alike shadowed left right
  case some.some.none.none => exact ⟨shadowed.1, shadowed.2.of_alike left⟩
  all_goals first | exact left.elim | exact right.elim | exact shadowed.elim

/-- Both show nothing, only the first shows an account, or both do. -/
theorem Shadowed.cases {gap : Prop} {x y : Option CachedAccount} (shadowed : Shadowed gap x y) :
    x = none ∧ y = none ∨ (∃ e, x = some e ∧ y = none ∧ gap ∧ Doomed e) ∨
      ∃ e f, x = some e ∧ y = some f ∧ Matches e f := by
  rcases x with _ | e <;> rcases y with _ | f
  case none.none => exact .inl ⟨rfl, rfl⟩
  case none.some => exact shadowed.elim
  case some.none => exact .inr (.inl ⟨e, rfl, rfl, shadowed⟩)
  case some.some => exact .inr (.inr ⟨e, f, rfl, rfl, shadowed⟩)

end Matching

/-- The account that an operation is about is as the operation takes it to be. -/
def Proper (s : CachedState) : Operation → Prop
  | .createContract a => s.lookup a = none
  | .setStorage a _ _ => s.lookup a ≠ none
  | .clearStorage a => ∃ e, s.cache[a]? = some e ∧ e.content.storage = e.baseRoot
  | .setCode a _ => ∃ e, s.lookup a = some e ∧ e.isDirty = true
  | _ => True

/-- The operation does not tell an empty account from none. -/
def Tolerant : Operation → Prop
  | .createContract _ => False
  | .setStorage _ _ _ => False
  | .clearStorage _ => False
  | .setCode _ _ => False
  | .addressInUse _ => False
  | _ => True

/-- An account that is going to be removed is used only where that makes no difference: it is
alive, without storage, and like an account that is made anew. -/
def Tame (s : CachedState) (op : Operation) : Prop :=
  ∀ e, s.lookup op.address = some e → Doomed e →
    Tolerant op ∧ e.isAlive = true ∧ e.content.storage = .empty ∧ s.accountStartNonce = 0

section Shadowing

variable {gap : Prop} {c r c' r' : CachedState} {a : Address}

/-- What every operation leaves as it is. -/
structure Advances (s t : CachedState) : Prop where
  state : t.state = s.state
  accountStartNonce : t.accountStartNonce = s.accountStartNonce
  faithful : t.Faithful
  grows : Grows s t

variable {s t : CachedState} {e : CachedAccount} {α : Type} {op : Operation}

theorem Advances.of_reads (reads : Reads s t) : Advances s t :=
  ⟨reads.state, reads.accountStartNonce, reads.faithful, .of_reads reads⟩

theorem Advances.trans {u : CachedState} (first : Advances s t) (second : Advances t u) :
    Advances s u :=
  ⟨second.state.trans first.state, second.accountStartNonce.trans first.accountStartNonce,
    second.faithful, first.grows.trans second.grows⟩

/-- A changed entry of an account that is there leaves the rest. -/
theorem Advances.change {change : Change}
    (faithful : s.Faithful) (present : s.lookup a ≠ none) (dirty : e.isDirty = true) :
    Advances s ((s.put a e).log change) := by
  have grows : Grows s (s.put a e) := .put present
  exact ⟨rfl, rfl, (faithful.put dirty).log change, grows.kept, grows.listed⟩

/-- What can be taken back leaves the trie as it is. -/
theorem Recedes.advances (recedes : Recedes s t) : Advances s t := by
  obtain ⟨⟨changes, reverts⟩, faithful, grows⟩ := recedes
  have restores := reverts.back t (.refl faithful.absent)
  obtain ⟨state, nonce, -⟩ := t.undoAll_frame changes
  exact ⟨state.symm.trans restores.state, nonce.symm.trans restores.accountStartNonce,
    faithful, grows⟩

theorem advances_setNonce (faithful : s.Faithful) (a : Address) (nonce : U256) :
    Advances s (s.setNonce a nonce) := by
  rcases account_cases faithful a with
    ⟨e, t, outcome, -, reads, held⟩ | ⟨t, outcome, missing, reads⟩
  · simp only [CachedState.setNonce, outcome]
    exact (Advances.of_reads reads).trans (.change reads.faithful (lookup_ne_none held) rfl)
  · simp only [CachedState.setNonce, outcome]
    exact (Advances.of_reads reads).trans
      (Recedes.create reads.faithful (reads.lookup_eq_none.mpr missing) rfl).advances

theorem advances_setStorage (faithful : s.Faithful) (key value : U256)
    (present : s.lookup a ≠ none) : Advances s (s.setStorage a key value) := by
  obtain ⟨-, reads, -⟩ := storage_spec faithful a key
  refine (Advances.of_reads reads).trans (.change reads.faithful ?_ rfl)
  rwa [ne_eq, reads.lookup_eq_none]

theorem advances_clearStorage (faithful : s.Faithful)
    (held : s.cache[a]? = some e) : Advances s (s.clearStorage a) := by
  rw [clearStorage_eq held]
  split
  · exact .of_reads (.refl faithful)
  · exact .change faithful (lookup_ne_none held) rfl

/-- It is enough to follow what shows. -/
theorem Shadows.advance (shadows : Shadows gap c r) (left : Advances c c') (right : Advances r r')
    (shown : ∀ a, Shadowed gap (c'.lookup a) (r'.lookup a)) : Shadows gap c' r' :=
  ⟨left.faithful, right.faithful, left.grows.listed shadows.listed,
    right.grows.listed shadows.listed',
    by rw [right.accountStartNonce, left.accountStartNonce, shadows.accountStartNonce], shown⟩

/-- Reading keeps two states alike. -/
theorem Shadows.reads (shadows : Shadows gap c r) (left : Reads c c') (right : Reads r r') :
    Shadows gap c' r' :=
  shadows.advance (.of_reads left) (.of_reads right)
    fun a => (shadows.shown a).of_sameShown (left.shown a) (right.shown a)

/-- So do changes of one address to entries that match. -/
theorem Shadows.update (shadows : Shadows gap c r) {f : CachedAccount} (left : Advances c c')
    (right : Advances r r') (shows_c : Shows c a e c') (shows_r : Shows r a f r')
    (same : Matches e f) : Shadows gap c' r' := by
  refine shadows.advance left right fun b => ?_
  have shown_c := shows_c b
  have shown_r := shows_r b
  by_cases here : a = b
  · rw [if_pos here] at shown_c shown_r
    exact Shadowed.of_sameShown (x := some e) (y := some f) same shown_c shown_r
  · rw [if_neg here] at shown_c shown_r
    exact (shadows.shown b).of_sameShown shown_c shown_r

/-- A doomed account without storage looks like a new one. -/
theorem content_of_tame (doomed : Doomed e) (alive : e.isAlive = true)
    (bare : e.content.storage = .empty) : e.content = .fresh 0 0 := by
  have empty : e.isEmpty = true := doomed.2.resolve_right (by simp [alive])
  simp only [CachedAccount.isEmpty, Bool.and_eq_true, beq_iff_eq] at empty
  obtain ⟨⟨nonce, balance⟩, code⟩ := empty
  exact Account.ext nonce balance code bare

/-- A reading of the content is the same where doomed accounts read as none. -/
theorem Shadowed.elim_eq {x y : Option CachedAccount} (shadowed : Shadowed gap x y)
    {g : CachedAccount → α} {missing : α} (same : ∀ e f, f.content = e.content → g f = g e)
    (doomed : ∀ e, x = some e → gap ∧ Doomed e → g e = missing) :
    x.elim missing g = y.elim missing g := by
  rcases x with _ | e <;> rcases y with _ | f
  case none.none => rfl
  case none.some => exact shadowed.elim
  case some.none => exact doomed e rfl shadowed
  case some.some => exact (same e f (Matches.content shadowed)).symm

theorem Tame.not_doomed (tame : Tame c op) (strict : ¬ Tolerant op)
    (shown : c.lookup op.address = some e) : ¬ Doomed e :=
  fun doomed => strict (tame e shown doomed).1

/-- Debiting either throws after reading, or credits the negated value. -/
theorem subBalance_cases (faithful : s.Faithful) (a : Address) (value : U256) :
    value = 0 ∧ s.subBalance a value = (.ok (), s) ∨
    value ≠ 0 ∧ ((s.lookup a).elim True (·.balance < value) ∧
        (s.subBalance a value).1 = .error .notEnoughCash ∧ Reads s (s.subBalance a value).2 ∨
      (s.lookup a).elim False (¬ ·.balance < value) ∧
        ∃ t, Reads s t ∧ s.subBalance a value = (.ok (), t.addBalance a (0 - value))) := by
  by_cases zero : value = 0
  · exact .inl ⟨zero, by rw [subBalance, if_pos zero]⟩
  · refine .inr ⟨zero, ?_⟩
    rcases account_cases faithful a with
      ⟨e, t, outcome, shown, reads, -⟩ | ⟨t, outcome, missing, reads⟩
    · rw [shown]
      by_cases short : e.balance < value
      · refine .inl ⟨short, ?_⟩
        simp only [subBalance, if_neg zero, outcome, if_pos short, true_and]
        exact reads
      · refine .inr ⟨short, t, reads, ?_⟩
        simp only [subBalance, if_neg zero, outcome, if_neg short]
    · rw [missing]
      refine .inl ⟨trivial, ?_⟩
      simp only [subBalance, if_neg zero, outcome, true_and]
      exact reads

/-- Reading keeps an operation tame. -/
theorem Tame.of_reads (tame : Tame c op) (reads : Reads c c') : Tame c' op := by
  intro f shown doomed
  have alike := reads.shown op.address
  rw [shown] at alike
  cases before : c.lookup op.address with
  | none => rw [before] at alike; exact alike.elim
  | some e =>
    rw [before] at alike
    have same : Alike e f := alike
    obtain ⟨tolerant, alive, bare, zero⟩ := tame e before (doomed.of_alike same.symm)
    exact ⟨tolerant, same.alive.trans alive, by rw [same.content, bare],
      reads.accountStartNonce.trans zero⟩

theorem isSome_eq_elim (x : Option α) : x.isSome = x.elim false fun _ => true := by
  cases x <;> rfl

theorem any_eq_elim (x : Option α) (p : α → Bool) : x.any p = x.elim false p := by
  cases x <;> rfl

variable (shadows : Shadows gap c r)

include shadows

/-- The same change on both sides keeps two states alike. -/
theorem Shadows.change {change : CachedAccount → CachedAccount} (new : CachedAccount)
    (left : Advances c c') (right : Advances r r')
    (changes : ∀ e, c.lookup a = some e → Shows c a (change e) c')
    (changes' : ∀ f, r.lookup a = some f → Shows r a (change f) r')
    (makes : c.lookup a = none → Shows c a new c') (makes' : r.lookup a = none → Shows r a new r')
    (same : ∀ e f, Matches e f → Matches (change e) (change f))
    (doomed : ∀ e, c.lookup a = some e → gap ∧ Doomed e → r.lookup a = none →
      Matches (change e) new) : Shadows gap c' r' := by
  rcases (shadows.shown a).cases with
    ⟨shown, shown'⟩ | ⟨e, shown, shown', gone⟩ | ⟨e, f, shown, shown', matching⟩
  · exact shadows.update left right (makes shown) (makes' shown') ⟨rfl, rfl, fun _ => rfl⟩
  · exact shadows.update left right (changes e shown) (makes' shown') (doomed e shown gone shown')
  · exact shadows.update left right (changes e shown) (changes' f shown') (same e f matching)

/-- Credits keep two states alike. -/
theorem Shadows.addBalance (amount : U256) (tame : gap → Tame c (.addBalance a amount)) :
    Shadows gap (c.addBalance a amount) (r.addBalance a amount) := by
  refine shadows.change _ (recedes_addBalance shadows.faithful a amount).advances
    (recedes_addBalance shadows.faithful' a amount).advances
    (fun e shown => shows_addBalance shadows.faithful shown amount)
    (fun f shown => shows_addBalance shadows.faithful' shown amount)
    (fun missing => shows_addBalance_of_none shadows.faithful missing amount)
    (fun missing => shadows.accountStartNonce ▸
      shows_addBalance_of_none shadows.faithful' missing amount)
    (fun e f same => ?_) fun e shown doomed _ => ?_
  · have balance : f.balance = e.balance := congrArg Account.balance same.content
    refine ⟨same.alive, ?_, fun _ => rfl⟩
    rw [content_addBalance, content_addBalance, same.content, balance]
  · -- The account that is going to be removed gets what a new account gets.
    obtain ⟨-, alive, bare, zero⟩ := tame doomed.1 e shown doomed.2
    have fresh := content_of_tame doomed.2 alive bare
    have balance : e.balance = 0 := congrArg Account.balance fresh
    refine ⟨alive.symm, ?_, fun _ => rfl⟩
    rw [content_addBalance, content_made, fresh, zero, balance, zero_add]
    rfl

/-- New nonces keep two states alike. -/
theorem Shadows.setNonce (nonce : U256) (tame : gap → Tame c (.setNonce a nonce)) :
    Shadows gap (c.setNonce a nonce) (r.setNonce a nonce) := by
  refine shadows.change _ (advances_setNonce shadows.faithful a nonce)
    (advances_setNonce shadows.faithful' a nonce)
    (fun e shown => shows_setNonce shadows.faithful shown nonce)
    (fun f shown => shows_setNonce shadows.faithful' shown nonce)
    (fun missing => shows_setNonce_of_none shadows.faithful missing nonce)
    (fun missing => shows_setNonce_of_none shadows.faithful' missing nonce)
    (fun e f same => ?_) fun e shown doomed _ => ?_
  · refine ⟨same.alive, ?_, fun _ => rfl⟩
    rw [content_setNonce, content_setNonce, same.content]
  · obtain ⟨-, alive, bare, -⟩ := tame doomed.1 e shown doomed.2
    refine ⟨alive.symm, ?_, fun _ => rfl⟩
    rw [content_setNonce, content_made, content_of_tame doomed.2 alive bare]
    rfl

/-- The nonce that shows is the same. -/
theorem Shadows.nonce_eq (tame : gap → Tame c (.getNonce a)) :
    (c.lookup a).elim c.accountStartNonce (·.nonce) =
      (r.lookup a).elim r.accountStartNonce (·.nonce) := by
  rw [shadows.accountStartNonce]
  refine (shadows.shown a).elim_eq (fun e f same => congrArg Account.nonce same)
    fun e shown doomed => ?_
  obtain ⟨-, alive, bare, zero⟩ := tame doomed.1 e shown doomed.2
  rw [zero]
  exact congrArg Account.nonce (content_of_tame doomed.2 alive bare)

theorem Shadows.incNonce (tame : gap → Tame c (.incNonce a)) :
    Shadows gap (c.incNonce a) (r.incNonce a) := by
  rw [incNonce_eq shadows.faithful, incNonce_eq shadows.faithful', shadows.nonce_eq tame]
  exact shadows.setNonce _ tame

/-- New contracts keep two states alike. -/
theorem Shadows.createContract (unused : c.lookup a = none) (unused' : r.lookup a = none) :
    Shadows gap (c.createContract a) (r.createContract a) := by
  have shows_r := shows_createContract (a := a) shadows.faithful'
  rw [shadows.accountStartNonce] at shows_r
  exact shadows.update (Recedes.create shadows.faithful unused rfl).advances
    (Recedes.create shadows.faithful' unused' rfl).advances
    (shows_createContract shadows.faithful) shows_r ⟨rfl, rfl, fun _ => rfl⟩

/-- Written words keep two states alike. -/
theorem Shadows.setStorage (key value : U256)
    (tame : gap → Tame c (.setStorage a key value)) (present : c.lookup a ≠ none)
    (present' : r.lookup a ≠ none) :
    Shadows gap (c.setStorage a key value) (r.setStorage a key value) := by
  refine shadows.change {}
    (advances_setStorage shadows.faithful key value present)
    (advances_setStorage shadows.faithful' key value present')
    (fun e shown => shows_setStorage shadows.faithful shown key value)
    (fun f shown => shows_setStorage shadows.faithful' shown key value)
    (fun missing => absurd missing present) (fun missing => absurd missing present')
    (fun e f same => ?_)
    fun e shown doomed _ => absurd doomed.2 ((tame doomed.1).not_doomed id shown)
  refine ⟨same.alive, ?_, fun _ => rfl⟩
  rw [content_setStorage, content_setStorage, same.content]

/-- New code keeps two states alike. -/
theorem Shadows.setCode (code : Bytes)
    (proper : Proper c (.setCode a code)) (proper' : Proper r (.setCode a code)) :
    Shadows gap (c.setCode a code) (r.setCode a code) := by
  obtain ⟨e, shown, dirty⟩ := proper
  obtain ⟨f, shown', dirty'⟩ := proper'
  have shadowed := shadows.shown a
  rw [shown, shown'] at shadowed
  have same : Matches e f := shadowed
  refine shadows.update (recedes_setCode shadows.faithful code shown dirty).advances
    (recedes_setCode shadows.faithful' code shown' dirty').advances
    (shows_setCode shadows.faithful shown code) (shows_setCode shadows.faithful' shown' code)
    ⟨same.alive, ?_, fun _ => dirty'.trans dirty.symm⟩
  rw [content_setCode, content_setCode, same.content]

/-- Cleared storages keep two states alike. -/
theorem Shadows.clearStorage (proper : Proper c (.clearStorage a))
    (proper' : Proper r (.clearStorage a)) :
    Shadows gap (c.clearStorage a) (r.clearStorage a) := by
  obtain ⟨e, held, committed⟩ := proper
  obtain ⟨f, held', committed'⟩ := proper'
  have shadowed := shadows.shown a
  rw [lookup_of_cached held, lookup_of_cached held'] at shadowed
  have same : Matches e f := shadowed
  -- All words are committed, so both storage tries are the same.
  have root : f.baseRoot = e.baseRoot := by
    rw [← committed', ← committed, same.content]
  by_cases bare : e.baseRoot.words.isEmpty = true
  · rwa [clearStorage_eq held, clearStorage_eq held', root, if_pos bare, if_pos bare]
  · refine shadows.update (advances_clearStorage shadows.faithful held)
      (advances_clearStorage shadows.faithful' held') (shows_clearStorage held bare)
      (shows_clearStorage held' (root ▸ bare)) ⟨same.alive, ?_, fun _ => rfl⟩
    rw [CachedAccount.clearStorage, CachedAccount.clearStorage, content_setStorageRoot,
      content_setStorageRoot, same.content]

/-- A balance covers a debit in both states or in none. -/
theorem Shadows.covers_iff {value : U256}
    (tame : gap → Tame c (.subBalance a value)) (positive : value ≠ 0) :
    (c.lookup a).elim True (·.balance < value) ↔ (r.lookup a).elim True (·.balance < value) := by
  refine iff_of_eq ((shadows.shown a).elim_eq (fun e f same => ?_) fun e shown doomed => ?_)
  · rw [show f.balance = e.balance from congrArg Account.balance same]
  · obtain ⟨-, alive, bare, -⟩ := tame doomed.1 e shown doomed.2
    have balance : e.balance = 0 := congrArg Account.balance (content_of_tame doomed.2 alive bare)
    have short : e.balance < value := by
      rw [balance]
      bv_omega
    exact eq_true short

/-- Debits throw alike and keep two states alike. -/
theorem Shadows.subBalance (value : U256)
    (tame : gap → Tame c (.subBalance a value)) :
    (c.subBalance a value).1 = (r.subBalance a value).1 ∧
      Shadows gap (c.subBalance a value).2 (r.subBalance a value).2 := by
  have opposite : ∀ shown : Option CachedAccount, shown.elim True (·.balance < value) →
      ¬ shown.elim False (¬ ·.balance < value) := by
    intro shown short
    cases shown with
    | none => exact id
    | some e => exact fun enough => enough short
  rcases subBalance_cases shadows.faithful a value with
    ⟨zero, here⟩ | ⟨positive, ⟨short, here, reads⟩ | ⟨enough, t, reads, here⟩⟩
  · rw [here]
    rcases subBalance_cases shadows.faithful' a value with ⟨-, there⟩ | ⟨positive, -⟩
    · rw [there]
      exact ⟨rfl, shadows⟩
    · exact absurd zero positive
  · have short' := (shadows.covers_iff tame positive).mp short
    rcases subBalance_cases shadows.faithful' a value with
      ⟨zero, -⟩ | ⟨-, ⟨-, there, reads'⟩ | ⟨enough', -⟩⟩
    · exact absurd zero positive
    · exact ⟨here.trans there.symm, shadows.reads reads reads'⟩
    · exact absurd enough' (opposite _ short')
  · rcases subBalance_cases shadows.faithful' a value with
      ⟨zero, -⟩ | ⟨-, ⟨short', -⟩ | ⟨-, t', reads', there⟩⟩
    · exact absurd zero positive
    · exact absurd enough (opposite _ ((shadows.covers_iff tame positive).mpr short'))
    · rw [here, there]
      refine ⟨rfl, (shadows.reads reads reads').addBalance _ ?_⟩
      intro gapped e shown doomed
      exact ((tame gapped).of_reads reads) e shown doomed

theorem Shadows.account_elim_eq {g : CachedAccount → α}
    {missing : α} (same : ∀ e f, f.content = e.content → g f = g e)
    (doomed : ∀ e, c.lookup a = some e → gap ∧ Doomed e → g e = missing) :
    (c.account a).1.elim missing g = (r.account a).1.elim missing g := by
  rw [fst_account shadows.faithful.absent, fst_account shadows.faithful'.absent]
  exact (shadows.shown a).elim_eq same doomed

theorem Shadows.reads_account (a : Address) :
    Shadows gap (c.account a).2 (r.account a).2 :=
  shadows.reads (account_spec shadows.faithful a).2.1 (account_spec shadows.faithful' a).2.1

/-- Every operation answers alike and keeps two states alike. -/
theorem Shadows.perform (proper : Proper c op)
    (proper' : Proper r op) (tame : gap → Tame c op) :
    c.answer op = r.answer op ∧ Shadows gap (c.perform op) (r.perform op) := by
  -- What a doomed account shows where it may be read.
  have bare : ∀ e, c.lookup op.address = some e → gap ∧ Doomed e →
      Tolerant op ∧ e.content = .fresh 0 0 ∧ c.accountStartNonce = 0 := by
    intro e shown doomed
    obtain ⟨tolerant, alive, empty, zero⟩ := tame doomed.1 e shown doomed.2
    exact ⟨tolerant, content_of_tame doomed.2 alive empty, zero⟩
  cases op with
  | addBalance a amount => exact ⟨rfl, shadows.addBalance amount tame⟩
  | subBalance a value => exact shadows.subBalance value tame
  | incNonce a => exact ⟨rfl, shadows.incNonce tame⟩
  | setNonce a nonce => exact ⟨rfl, shadows.setNonce nonce tame⟩
  | createContract a => exact ⟨rfl, shadows.createContract proper proper'⟩
  | setStorage a key value => exact ⟨rfl, shadows.setStorage key value tame proper proper'⟩
  | clearStorage a => exact ⟨rfl, shadows.clearStorage proper proper'⟩
  | setCode a code => exact ⟨rfl, shadows.setCode code proper proper'⟩
  | addressInUse a =>
    refine ⟨?_, shadows.reads_account a⟩
    change (c.account a).1.isSome = (r.account a).1.isSome
    rw [isSome_eq_elim, isSome_eq_elim]
    exact shadows.account_elim_eq (fun _ _ _ => rfl)
      fun e shown doomed => (bare e shown doomed).1.elim
  | accountNonemptyAndExisting a =>
    refine ⟨?_, shadows.reads_account a⟩
    change (c.account a).1.any (!·.isEmpty) = (r.account a).1.any (!·.isEmpty)
    rw [any_eq_elim, any_eq_elim]
    refine shadows.account_elim_eq (fun e f same => ?_) fun e shown doomed => ?_
    · rw [isEmpty_eq, same, ← isEmpty_eq]
    · rw [isEmpty_eq, (bare e shown doomed).2.1]
      rfl
  | addressHasCode a =>
    refine ⟨?_, shadows.reads_account a⟩
    change (c.account a).1.any (·.code != []) = (r.account a).1.any (·.code != [])
    rw [any_eq_elim, any_eq_elim]
    refine shadows.account_elim_eq (fun e f same => ?_) fun e shown doomed => ?_
    · rw [show f.code = e.code from congrArg Account.code same]
    · rw [show e.code = [] from congrArg Account.code (bare e shown doomed).2.1]
      rfl
  | balance a =>
    refine ⟨shadows.account_elim_eq (fun e f same => congrArg Account.balance same)
      fun e shown doomed => ?_, shadows.reads_account a⟩
    exact congrArg Account.balance (bare e shown doomed).2.1
  | getNonce a =>
    refine ⟨?_, shadows.reads_account a⟩
    simp only [answer, CachedState.getNonce, shadows.accountStartNonce]
    refine shadows.account_elim_eq (fun e f same => congrArg Account.nonce same)
      fun e shown doomed => ?_
    obtain ⟨-, fresh, zero⟩ := bare e shown doomed
    rw [zero]
    exact congrArg Account.nonce fresh
  | code a =>
    refine ⟨shadows.account_elim_eq (fun e f same => congrArg Account.code same)
      fun e shown doomed => ?_, shadows.reads_account a⟩
    exact congrArg Account.code (bare e shown doomed).2.1
  | storage a key =>
    refine ⟨?_, shadows.reads (storage_spec shadows.faithful a key).2.1
      (storage_spec shadows.faithful' a key).2.1⟩
    simp only [answer]
    rw [(storage_spec shadows.faithful a key).1, (storage_spec shadows.faithful' a key).1]
    refine (shadows.shown a).elim_eq (fun e f same => by rw [same]) fun e shown doomed => ?_
    rw [(bare e shown doomed).2.1]
    exact Storage.read_empty key
  | storageMap a =>
    refine ⟨shadows.account_elim_eq (fun e f same => congrArg Account.storage same)
      fun e shown doomed => ?_, shadows.reads_account a⟩
    exact congrArg Account.storage (bare e shown doomed).2.1

end Shadowing

end CachedState

end Etiam
