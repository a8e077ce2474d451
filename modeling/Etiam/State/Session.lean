import Etiam.State.Shadow

/-! Whole transactions run alike on a state and on the same state committed more often. -/

namespace Etiam

namespace CachedState

open CachedAccount

section Restoring

variable {gap : Prop} {s u c r c' r' : CachedState}

/-- A restored state is as faithful as the old one. -/
theorem Restores.faithful (restores : Restores s u) (faithful : s.Faithful) : u.Faithful := by
  refine ⟨restores.absent, fun a f held clean => ?_⟩
  have agrees := restores.shown a
  rw [lookup_of_cached held] at agrees
  cases shown : s.lookup a with
  | none => rw [shown] at agrees; exact agrees.elim
  | some e =>
    rw [shown] at agrees
    have agree : Agree e f := agrees
    have clean' : e.isDirty = false := by
      cases dirty : e.isDirty with
      | false => rfl
      | true => exact (clean.symm.trans (agree.dirty dirty)).symm
    obtain ⟨stored, there, alike⟩ := faithful.alike shown clean'
    refine ⟨stored, by rw [restores.state, there], agree.alive.trans alike.alive, ?_,
      agree.root.trans alike.root, agree.content.trans alike.content⟩
    have unchanged : f.isUnchanged = true := by simpa [isDirty] using clean
    exact unchanged

/-- Empty accounts that agree are marked alike. -/
theorem Agree.dirty_eq {e f : CachedAccount} (agree : Agree e f) (empty : e.isEmpty = true) :
    f.isDirty = e.isDirty := by
  cases dirty : e.isDirty with
  | true => exact agree.dirty dirty
  | false =>
    cases dirty' : f.isDirty with
    | false => rfl
    | true =>
      rcases agree.touched dirty' with changed | filled
      · exact changed.symm.trans dirty
      · exact (filled.symm.trans empty).symm

theorem Agree.isEmpty_eq {e f : CachedAccount} (agree : Agree e f) : f.isEmpty = e.isEmpty := by
  rw [CachedAccount.isEmpty_eq, agree.content, ← CachedAccount.isEmpty_eq]

/-- Restoring both sides keeps the shadow. -/
theorem Shadowed.of_agrees {x x' y y' : Option CachedAccount} (shadowed : Shadowed gap x y)
    (left : Agrees x x') (right : Agrees y y') : Shadowed gap x' y' := by
  rcases x with _ | e <;> rcases x' with _ | e' <;> rcases y with _ | f <;> rcases y' with _ | f'
  case none.none.none.none => trivial
  case some.some.some.some =>
    have same : Matches e f := shadowed
    have here : Agree e e' := left
    have there : Agree f f' := right
    refine ⟨there.alive.trans (same.alive.trans here.alive.symm),
      there.content.trans (same.content.trans here.content.symm), fun empty' => ?_⟩
    have empty : e.isEmpty = true := here.isEmpty_eq.symm.trans empty'
    rw [here.dirty_eq empty, there.dirty_eq (same.isEmpty_eq.trans empty), same.dirty empty]
  case some.some.none.none =>
    obtain ⟨gapped, doomed⟩ : gap ∧ Doomed e := shadowed
    have here : Agree e e' := left
    refine ⟨gapped, here.dirty doomed.1, ?_⟩
    rw [here.isEmpty_eq, here.alive]
    exact doomed.2
  all_goals first | exact left.elim | exact right.elim | exact shadowed.elim

/-- A rollback ends at the savepoint. -/
theorem Recedes.savepoint_rollback (recedes : Recedes s u) :
    (u.rollback s.savepoint).savepoint = s.savepoint := by
  obtain ⟨changes, reverts⟩ := recedes.reverts
  rw [savepoint, savepoint, u.rollback_eq reverts.changeLog]

/-- Accounts noted as missing are missing after a rollback. -/
theorem Recedes.listed_rollback (recedes : Recedes s u) (listed : u.Listed) :
    (u.rollback s.savepoint).Listed := by
  obtain ⟨changes, reverts⟩ := recedes.reverts
  have restores := recedes.rollback
  intro a noted
  have before : a ∈ u.nonExistingAccountsCache := by
    rw [savepoint, u.rollback_eq reverts.changeLog] at noted
    exact (u.undoAll_frame changes).2.2 ▸ noted
  have agrees := restores.shown a
  rw [recedes.grows.kept a (listed a before)] at agrees
  cases shown : (u.rollback s.savepoint).lookup a with
  | none => rfl
  | some f => rw [shown] at agrees; exact agrees.elim

/-- Rolling both states back keeps them alike. -/
theorem Shadows.rollback (shadows : Shadows gap c r) (left : Recedes c c') (right : Recedes r r') :
    Shadows gap (c'.rollback c.savepoint) (r'.rollback r.savepoint) := by
  have restores := left.rollback
  have restores' := right.rollback
  refine ⟨restores.faithful shadows.faithful, restores'.faithful shadows.faithful',
    left.listed_rollback (left.grows.listed shadows.listed),
    right.listed_rollback (right.grows.listed shadows.listed'), ?_,
    fun a => (shadows.shown a).of_agrees (restores.shown a) (restores'.shown a)⟩
  rw [restores.accountStartNonce, restores'.accountStartNonce, shadows.accountStartNonce]

end Restoring

section Committing

variable {gap : Prop} {s c r : CachedState} {a : Address}

/-- Only a changed account can be dead. -/
theorem Faithful.dirty_of_dead (faithful : s.Faithful) {e : CachedAccount}
    (shown : s.lookup a = some e) (dead : e.isAlive = false) : e.isDirty = true := by
  cases dirty : e.isDirty with
  | true => rfl
  | false => exact dead.symm.trans (faithful.shown shown dirty).1

theorem commit_of_missing (missing : s.lookup a = none) :
    (s.commit .removeEmptyAccounts).state[a]? = none := by
  rw [← settled_lookup, missing]
  exact (lookup_eq_none.mp missing).2

/-- A commit removes a doomed account. -/
theorem commit_of_doomed {e : CachedAccount} (shown : s.lookup a = some e) (doomed : Doomed e) :
    (s.commit .removeEmptyAccounts).state[a]? = none := by
  rw [← settled_lookup, shown]
  obtain ⟨dirty, gone⟩ := doomed
  rcases gone with empty | dead
  · simp [settled, dirty, empty]
  · simp [settled, dirty, dead]

/-- It writes every other account as it shows. -/
theorem commit_of_not_doomed (faithful : s.Faithful) {e : CachedAccount}
    (shown : s.lookup a = some e) (lasting : ¬ Doomed e) :
    e.isAlive = true ∧ (s.commit .removeEmptyAccounts).state[a]? = some e.content := by
  have alive : e.isAlive = true := by
    cases alive : e.isAlive with
    | true => rfl
    | false => exact absurd ⟨faithful.dirty_of_dead shown alive, .inr alive⟩ lasting
  refine ⟨alive, ?_⟩
  rw [← settled_lookup, shown]
  cases dirty : e.isDirty with
  | false => simpa [settled, dirty] using (faithful.shown shown dirty).2
  | true =>
    have filled : e.isEmpty = false := by
      cases empty : e.isEmpty with
      | false => rfl
      | true => exact absurd ⟨dirty, .inl empty⟩ lasting
    simp [settled, dirty, filled, alive]

/-- Accounts that match are doomed together. -/
theorem Matches.doomed_iff {e f : CachedAccount} (same : Matches e f) (faithful : c.Faithful)
    (faithful' : r.Faithful) (shown : c.lookup a = some e) (shown' : r.lookup a = some f) :
    Doomed e ↔ Doomed f := by
  constructor
  · rintro ⟨dirty, empty | dead⟩
    · exact ⟨(same.dirty empty).trans dirty, .inl (same.isEmpty_eq.trans empty)⟩
    · have dead' := same.alive.trans dead
      exact ⟨faithful'.dirty_of_dead shown' dead', .inr dead'⟩
  · rintro ⟨dirty, empty | dead⟩
    · have empty' := same.isEmpty_eq.symm.trans empty
      exact ⟨(same.dirty empty').symm.trans dirty, .inl empty'⟩
    · have dead' := same.alive.symm.trans dead
      exact ⟨faithful.dirty_of_dead shown dead', .inr dead'⟩

theorem lookup_commit (behaviour : CommitBehaviour) :
    (s.commit behaviour).lookup a = (s.commit behaviour).state[a]?.map .loaded := by
  have bare : (s.commit behaviour).cache[a]? = none := by
    unfold commit
    exact Std.ExtTreeMap.getElem?_empty
  rw [lookup, bare, Option.none_or]

theorem nonExistingAccountsCache_commit (behaviour : CommitBehaviour) :
    (s.commit behaviour).nonExistingAccountsCache = s.nonExistingAccountsCache := by
  unfold commit
  split <;> rfl

theorem accountStartNonce_commit (behaviour : CommitBehaviour) :
    (s.commit behaviour).accountStartNonce = s.accountStartNonce := by
  unfold commit
  split <;> rfl

/-- A committed state is faithful. -/
theorem Listed.commit (listed : s.Listed) :
    (s.commit .removeEmptyAccounts).Faithful ∧ (s.commit .removeEmptyAccounts).Listed := by
  have missing : ∀ a ∈ (s.commit .removeEmptyAccounts).nonExistingAccountsCache,
      (s.commit .removeEmptyAccounts).state[a]? = none := by
    intro a noted
    rw [nonExistingAccountsCache_commit] at noted
    exact commit_of_missing (listed a noted)
  refine ⟨⟨missing, fun a e held => ?_⟩, fun a noted => ?_⟩
  · unfold CachedState.commit at held
    cases held.symm.trans Std.ExtTreeMap.getElem?_empty
  · rw [lookup_commit, missing a noted]
    rfl

/-- Committing the state that is committed more often leaves the two alike. -/
theorem Shadows.commit (shadows : Shadows True c r) :
    Shadows True c (r.commit .removeEmptyAccounts) := by
  obtain ⟨faithful, listed⟩ := shadows.listed'.commit
  refine ⟨shadows.faithful, faithful, shadows.listed, listed, ?_, fun a => ?_⟩
  · rw [accountStartNonce_commit, shadows.accountStartNonce]
  · rw [lookup_commit]
    rcases (shadows.shown a).cases with
      ⟨shown, shown'⟩ | ⟨e, shown, shown', gone⟩ | ⟨e, f, shown, shown', same⟩
    · rw [commit_of_missing shown', shown]
      trivial
    · rw [commit_of_missing shown', shown]
      exact gone
    · have removed := same.doomed_iff shadows.faithful shadows.faithful' shown shown'
      rw [shown]
      by_cases doomed : Doomed f
      · rw [commit_of_doomed shown' doomed]
        exact ⟨trivial, removed.mpr doomed⟩
      · obtain ⟨alive, stored⟩ := commit_of_not_doomed shadows.faithful' shown' doomed
        rw [stored]
        refine ⟨?_, ?_, fun empty => ?_⟩
        · exact alive.symm.trans same.alive
        · rw [content_loaded, same.content]
        · -- An empty account that lasts was not marked as changed.
          cases dirty : e.isDirty with
          | false => rfl
          | true => exact absurd (removed.mp ⟨dirty, .inl empty⟩) doomed

/-- Two states that are alike commit to the same trie. -/
theorem Shadows.commit_state (shadows : Shadows gap c r) :
    (c.commit .removeEmptyAccounts).state = (r.commit .removeEmptyAccounts).state := by
  apply Std.ExtTreeMap.ext_getElem?
  intro a
  rcases (shadows.shown a).cases with
    ⟨shown, shown'⟩ | ⟨e, shown, shown', -, gone⟩ | ⟨e, f, shown, shown', same⟩
  · rw [commit_of_missing shown, commit_of_missing shown']
  · rw [commit_of_doomed shown gone, commit_of_missing shown']
  · have removed := same.doomed_iff shadows.faithful shadows.faithful' shown shown'
    by_cases doomed : Doomed e
    · rw [commit_of_doomed shown doomed, commit_of_doomed shown' (removed.mp doomed)]
    · rw [(commit_of_not_doomed shadows.faithful shown doomed).2,
        (commit_of_not_doomed shadows.faithful' shown' (mt removed.mpr doomed)).2, same.content]

end Committing

section Killing

variable {gap : Prop} {s c r : CachedState} {a : Address} {e : CachedAccount}

/-- A killed account shows dead. -/
theorem shows_kill (faithful : s.Faithful) (shown : s.lookup a = some e) :
    Shows s a e.kill (s.kill a) ∧ Advances s (s.kill a) := by
  obtain ⟨t, outcome, reads, held⟩ := account_of_some faithful shown
  simp only [CachedState.kill, outcome]
  refine ⟨.of_reads reads fun b => lookup_put t a _ b, ?_⟩
  exact (Advances.of_reads reads).trans
    ⟨rfl, rfl, reads.faithful.put rfl, .put (lookup_ne_none held)⟩

theorem reads_kill (faithful : s.Faithful) (missing : s.lookup a = none) : Reads s (s.kill a) := by
  obtain ⟨t, outcome, reads⟩ := account_of_none faithful missing
  simp only [CachedState.kill, outcome]
  exact reads

/-- Killing an account keeps two states alike. -/
theorem Shadows.kill (shadows : Shadows gap c r) (a : Address) :
    Shadows gap (c.kill a) (r.kill a) := by
  rcases (shadows.shown a).cases with
    ⟨shown, shown'⟩ | ⟨e, shown, shown', gapped, -⟩ | ⟨e, f, shown, shown', -⟩
  · exact shadows.reads (reads_kill shadows.faithful shown) (reads_kill shadows.faithful' shown')
  · -- Only one state still has the account, which is removed by the next commit as before.
    obtain ⟨shows_c, left⟩ := shows_kill shadows.faithful shown
    have reads := reads_kill shadows.faithful' shown'
    refine shadows.advance left (.of_reads reads) fun b => ?_
    have here := shows_c b
    by_cases same : a = b
    · subst same
      rw [if_pos rfl] at here
      have there := reads.shown a
      rw [shown'] at there
      exact Shadowed.of_sameShown (x := some e.kill) (y := none) ⟨gapped, rfl, .inr rfl⟩ here there
    · rw [if_neg same] at here
      exact (shadows.shown b).of_sameShown here (reads.shown b)
  · obtain ⟨shows_c, left⟩ := shows_kill shadows.faithful shown
    obtain ⟨shows_r, right⟩ := shows_kill shadows.faithful' shown'
    exact shadows.update left right shows_c shows_r ⟨rfl, rfl, fun _ => rfl⟩

end Killing

end CachedState

namespace Session

open CachedState

/-- The command is used as it is meant to be, and can be taken back once a savepoint is taken. -/
def Fine (s : Session) : Command → Prop
  | .perform op => Proper s.state op ∧ (s.savepoint.isSome = true → Reversible s.state op)
  | .rollback => s.savepoint.isSome = true
  | _ => True

/-- The command does not tell an account that is going to be removed from none. -/
def Tame (s : Session) : Command → Prop
  | .perform op => s.state.Tame op
  | _ => True

/-- The savepoints of two transactions were taken in states that are alike. -/
def SavedAlike (gap : Prop) (s t : Session) : Option ℕ → Option ℕ → Prop
  | none, none => True
  | some i, some j => ∃ c r, Shadows gap c r ∧ c.savepoint = i ∧ r.savepoint = j ∧
      Recedes c s.state ∧ Recedes r t.state
  | _, _ => False

/-- Two transactions in the same place, on states that are alike. -/
structure Paired (gap : Prop) (s t : Session) : Prop where
  shadows : Shadows gap s.state t.state
  saved : SavedAlike gap s t s.savepoint t.savepoint

variable {gap : Prop} {s t : Session}

theorem Paired.start {c r : CachedState} (shadows : Shadows gap c r) :
    Paired gap (.start c) (.start r) := ⟨shadows, trivial⟩

/-- Changes that lead back keep the savepoints. -/
theorem SavedAlike.advance {i j : Option ℕ} (saved : SavedAlike gap s t i j) {s' t' : Session}
    (left : i.isSome = true → Recedes s.state s'.state)
    (right : j.isSome = true → Recedes t.state t'.state) : SavedAlike gap s' t' i j := by
  cases i with
  | none => cases j with
    | none => trivial
    | some j => exact saved.elim
  | some i => cases j with
    | none => exact saved.elim
    | some j =>
      obtain ⟨c, r, shadows, here, there, recedes, recedes'⟩ := saved
      exact ⟨c, r, shadows, here, there, recedes.trans (left rfl), recedes'.trans (right rfl)⟩

theorem Fine.recedes {op : Operation} (fine : s.Fine (.perform op)) (faithful : s.state.Faithful)
    (saved : s.savepoint.isSome = true) : Recedes s.state (s.state.perform op) := by
  refine recedes_perform faithful (fine.2 saved) ?_
  cases op with
  | setCode a code => exact fine.1
  | _ => trivial

/-- One command answers alike on both sides. -/
theorem Paired.handle (paired : Paired gap s t) {command : Command} (fine : s.Fine command)
    (tame : gap → s.Tame command) (fine' : t.Fine command) :
    (Session.handle command s).1 = (Session.handle command t).1 ∧
      Paired gap (Session.handle command s).2 (Session.handle command t).2 := by
  obtain ⟨shadows, saved⟩ := paired
  cases command with
  | perform op =>
    obtain ⟨same, shadows'⟩ := shadows.perform fine.1 fine'.1 tame
    exact ⟨same, shadows', saved.advance (fine.recedes shadows.faithful)
      (fine'.recedes shadows.faithful')⟩
  | requireAccountStartNonce => exact ⟨shadows.accountStartNonce.symm, shadows, saved⟩
  | savepoint =>
    exact ⟨rfl, shadows, s.state, t.state, shadows, rfl, rfl, .of_reads (.refl shadows.faithful),
      .of_reads (.refl shadows.faithful')⟩
  | rollback =>
    obtain ⟨i, taken⟩ := Option.isSome_iff_exists.mp fine
    obtain ⟨j, taken'⟩ := Option.isSome_iff_exists.mp fine'
    rw [taken, taken'] at saved
    obtain ⟨c, r, before, rfl, rfl, recedes, recedes'⟩ := saved
    have shadows' := before.rollback recedes recedes'
    refine ⟨rfl, ?_, ?_⟩
    · simpa only [Session.handle, taken, taken', Option.getD_some] using shadows'
    · -- The state after the rollback takes the place of the one at the savepoint.
      simp only [Session.handle, taken, taken', Option.getD_some]
      exact ⟨_, _, shadows', recedes.savepoint_rollback, recedes'.savepoint_rollback,
        .of_reads (.refl shadows'.faithful), .of_reads (.refl shadows'.faithful')⟩

/-- So does a whole transaction. -/
theorem Paired.run {α : Type} (paired : Paired gap s t) (program : StateProgram α)
    (fine : program.Along Session.handle
      (fun s command => s.Fine command ∧ (gap → s.Tame command)) s)
    (fine' : program.Along Session.handle Fine t) :
    (program.run Session.handle s).1 = (program.run Session.handle t).1 ∧
      Paired gap (program.run Session.handle s).2 (program.run Session.handle t).2 :=
  Calls.run_simulates (fun _ _ _ paired here there => paired.handle here.1 here.2 there)
    program paired fine fine'

end Session

end Etiam
