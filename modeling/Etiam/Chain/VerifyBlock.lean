import Mathlib.Data.List.GetD
import Etiam.Library.Bytes
import Etiam.Library.Threads

/-! The transactions of a block are checked by four workers that share a cursor. -/

namespace Etiam

/-- A transaction that failed its check, as the callback for bad blocks is told about it. -/
structure BadTransaction (Exception : Type*) where
  phase : ℕ
  transactionIndex : ℕ
  transaction : Bytes
  exception : Exception
  deriving DecidableEq

/-- How the check of a block's transactions ends for its caller. -/
inductive Verified (Transaction Exception : Type*) where
  | returns (transactions : List Transaction)
  | throws (e : Exception)
  /-- The whole process is ended. -/
  | terminates
  deriving DecidableEq

namespace VerifyBlock

variable {Transaction Exception : Type*}

/-- Decoding a transaction and verifying it under the requirements of the import. -/
abbrev Check (Transaction Exception : Type*) := Bytes → Except Exception Transaction

/-- What the workers share: the cursor, the failure flag, the result and the reports. -/
structure Shared (Transaction Exception : Type*) where
  i : ℕ
  hasException : Bool
  transactions : List Transaction
  onBad : List (BadTransaction Exception)

/-- Where a worker is in its loop. -/
inductive Worker (Transaction Exception : Type*) where
  | looping
  | fetching
  | checking (pos : ℕ) (d : Bytes)
  | storing (pos : ℕ) (t : Transaction)
  | failing (pos : ℕ) (d : Bytes) (ex : Exception)
  | finished

/-- One worker's loop, cut where another worker may come in between. -/
def worker (check : Check Transaction Exception) (txRLP : List Bytes) :
    Program (Shared Transaction Exception) (Worker Transaction Exception)
  | s, .looping => some (s, if s.hasException then .finished else .fetching)
  -- The cursor is read and moved under a lock of its own.
  | s, .fetching =>
    match txRLP[s.i]? with
    | none => some (s, .finished)
    | some d => some ({ s with i := s.i + 1 }, .checking s.i d)
  | s, .checking pos d =>
    match check d with
    | .ok t => some (s, .storing pos t)
    | .error ex => some (s, .failing pos d ex)
  | s, .storing pos t => some ({ s with transactions := s.transactions.set pos t }, .looping)
  -- The flag is taken by an atomic exchange, so that one worker alone reports.
  | s, .failing pos d ex =>
    if s.hasException then some (s, .looping)
    else
      let bad := { phase := 1, transactionIndex := pos, transaction := d, exception := ex }
      some ({ s with hasException := true, onBad := s.onBad ++ [bad] }, .looping)
  | _, .finished => none

/-- The pool that the check starts with, before any worker has run. -/
def start [Inhabited Transaction] (txRLP : List Bytes) :
    Pool 4 (Shared Transaction Exception) (Worker Transaction Exception) where
  shared := {
    i := 0
    hasException := false
    transactions := List.replicate txRLP.length default
    onBad := [] }
  threads := fun _ => .looping

/-- What the calling thread does once it has joined the workers. -/
def join (s : Shared Transaction Exception) : Verified Transaction Exception :=
  -- A throw without operand rethrows the exception being handled, and here there is none.
  if s.hasException then .terminates else .returns s.transactions

/-- The sequential version of the check, from a given index on. -/
def verifyFrom (check : Check Transaction Exception) :
    ℕ → List Bytes → List Transaction →
      Verified Transaction Exception × List (BadTransaction Exception)
  | _, [], done => (.returns done, [])
  | i, d :: rest, done =>
    match check d with
    | .ok t => verifyFrom check (i + 1) rest (done ++ [t])
    | .error ex =>
      (.throws ex, [{ phase := 1, transactionIndex := i, transaction := d, exception := ex }])

/-- The sequential version of the check. -/
def verifySequentially (check : Check Transaction Exception) (txRLP : List Bytes) :
    Verified Transaction Exception × List (BadTransaction Exception) :=
  verifyFrom check 0 txRLP []

/-- A report is about a transaction of the block that did fail its check. -/
def Reports (check : Check Transaction Exception) (txRLP : List Bytes)
    (bad : BadTransaction Exception) : Prop :=
  bad.phase = 1 ∧ txRLP[bad.transactionIndex]? = some bad.transaction ∧
    check bad.transaction = .error bad.exception

/-- The workers did what the sequential version does. -/
def Agrees (check : Check Transaction Exception) (txRLP : List Bytes)
    (s : Shared Transaction Exception) : Prop :=
  match (verifySequentially check txRLP).1 with
  -- The same transactions in the same order, and nothing is reported.
  | .returns transactions => join s = .returns transactions ∧ s.onBad = []
  -- Some bad transaction is reported, and its exception reaches the caller.
  | _ => ∃ bad, Reports check txRLP bad ∧ s.onBad = [bad] ∧ join s = .throws bad.exception

section Loop

variable {check : Check Transaction Exception} {txRLP : List Bytes}

/-- How many steps a worker has left before it needs another transaction. -/
def Worker.left : Worker Transaction Exception → ℕ
  | .looping => 2
  | .fetching => 1
  | .checking _ _ => 4
  | .storing _ _ => 3
  | .failing _ _ _ => 3
  | .finished => 0

/-- How many steps all the workers have left at most. -/
def stepsLeft (txRLP : List Bytes)
    (p : Pool 4 (Shared Transaction Exception) (Worker Transaction Exception)) : ℕ :=
  4 * (txRLP.length - p.shared.i) + ∑ j, (p.threads j).left

variable {s : Shared Transaction Exception} {w : Worker Transaction Exception}

theorem worker_falls {next : Shared Transaction Exception × Worker Transaction Exception}
    (takes : worker check txRLP s w = some next) :
    4 * (txRLP.length - next.1.i) + next.2.left < 4 * (txRLP.length - s.i) + w.left := by
  cases w with
  | looping =>
    simp only [worker, Option.some.injEq] at takes
    subst takes
    cases s.hasException <;> simp [Worker.left]
  | fetching =>
    simp only [worker] at takes
    split at takes
    · cases takes; simp [Worker.left]
    · next d found =>
      cases takes
      have inside := (List.getElem?_eq_some_iff.mp found).1
      simp only [Worker.left]
      omega
  | checking pos d =>
    simp only [worker] at takes
    split at takes <;> cases takes <;> simp [Worker.left]
  | storing pos t =>
    cases takes
    simp [Worker.left]
  | failing pos d ex =>
    simp only [worker] at takes
    split at takes <;> cases takes <;> simp [Worker.left]
  | finished => cases takes

theorem stepsLeft_falls
    (p : Pool 4 (Shared Transaction Exception) (Worker Transaction Exception)) (i : Fin 4)
    (next : Shared Transaction Exception × Worker Transaction Exception)
    (takes : worker check txRLP p.shared (p.threads i) = some next) :
    stepsLeft txRLP (p.advance i next) < stepsLeft txRLP p := by
  have own := worker_falls takes
  have others := Pool.sum_advance Worker.left p i next
  simp only [stepsLeft, Pool.advance] at others ⊢
  omega

/-- The transaction at a position has been dealt with. -/
def Settled (check : Check Transaction Exception) (s : Shared Transaction Exception) (pos : ℕ)
    (d : Bytes) : Prop :=
  match check d with
  | .ok t => s.transactions[pos]? = some t
  | .error _ => s.hasException = true

/-- The position that a worker has fetched and not yet dealt with. -/
def Worker.inHand : Worker Transaction Exception → Option ℕ
  | .checking pos _ => some pos
  | .storing pos _ => some pos
  | .failing pos _ _ => some pos
  | _ => none

/-- What a worker carries is what the block and the check say. -/
def Worker.Carries (check : Check Transaction Exception) (txRLP : List Bytes)
    (s : Shared Transaction Exception) : Worker Transaction Exception → Prop
  | .looping => True
  | .fetching => True
  | .checking pos d => txRLP[pos]? = some d
  | .storing pos t => ∃ d, txRLP[pos]? = some d ∧ check d = .ok t
  | .failing pos d ex => txRLP[pos]? = some d ∧ check d = .error ex
  | .finished => s.hasException = true ∨ s.i = txRLP.length

/-- What is so of the shared memory at any time. -/
structure Sound (check : Check Transaction Exception) (txRLP : List Bytes)
    (s : Shared Transaction Exception) : Prop where
  length : s.transactions.length = txRLP.length
  within : s.i ≤ txRLP.length
  reported : if s.hasException then ∃ bad, Reports check txRLP bad ∧ s.onBad = [bad]
    else s.onBad = []

/-- What one step may do to the memory that the other workers rely on. -/
structure Grows (check : Check Transaction Exception) (txRLP : List Bytes)
    (s s' : Shared Transaction Exception) : Prop where
  flag : s.hasException = true → s'.hasException = true
  ended : s.i = txRLP.length → s'.i = txRLP.length
  kept : ∀ pos d, txRLP[pos]? = some d → Settled check s pos d → Settled check s' pos d

/-- What one step of a worker does, to the shared memory and to what it has in hand. -/
structure StepsTo (check : Check Transaction Exception) (txRLP : List Bytes)
    (s : Shared Transaction Exception) (w : Worker Transaction Exception)
    (next : Shared Transaction Exception × Worker Transaction Exception) : Prop where
  sound : Sound check txRLP next.1
  grows : Grows check txRLP s next.1
  carries : next.2.Carries check txRLP next.1
  /-- A position let go of is settled. -/
  settles : ∀ pos d, txRLP[pos]? = some d → w.inHand = some pos →
    Settled check next.1 pos d ∨ next.2.inHand = some pos
  /-- A position passed by the cursor is in the worker's hand. -/
  takes : ∀ pos, pos < next.1.i → pos < s.i ∨ next.2.inHand = some pos

theorem Grows.refl (s : Shared Transaction Exception) : Grows check txRLP s s :=
  ⟨id, id, fun _ _ _ => id⟩

theorem Settled.set {pos other : ℕ} {d e : Bytes}
    {t : Transaction} (at_pos : txRLP[pos]? = some d) (passes : check d = .ok t)
    (at_other : txRLP[other]? = some e) (settled : Settled check s other e) :
    Settled check { s with transactions := s.transactions.set pos t } other e := by
  unfold Settled at settled ⊢
  split at settled
  · next t' passes' =>
    by_cases same : pos = other
    · -- The position itself is written with what it already holds.
      subst same
      obtain rfl := Option.some.inj (at_pos.symm.trans at_other)
      obtain rfl := Except.ok.inj (passes.symm.trans passes')
      obtain ⟨inside, -⟩ := List.getElem?_eq_some_iff.mp settled
      simp [inside]
    · simpa [List.getElem?_set, same] using settled
  · exact settled

theorem stepsTo_of_worker {next : Shared Transaction Exception × Worker Transaction Exception}
    (sound : Sound check txRLP s) (carries : w.Carries check txRLP s)
    (step : worker check txRLP s w = some next) : StepsTo check txRLP s w next := by
  cases w with
  | looping =>
    simp only [worker, Option.some.injEq] at step
    subst step
    refine ⟨sound, .refl s, ?_, fun _ _ _ none => (by cases none), fun _ below => .inl below⟩
    cases flag : s.hasException with
    | false => trivial
    | true => exact .inl flag
  | fetching =>
    simp only [worker] at step
    split at step
    · next beyond =>
      -- The cursor is at the end of the list.
      cases step
      have ended : s.i = txRLP.length :=
        le_antisymm sound.within (List.getElem?_eq_none_iff.mp beyond)
      exact ⟨sound, .refl s, .inr ended, fun _ _ _ none => (by cases none),
        fun _ below => .inl below⟩
    · next d found =>
      cases step
      have inside := (List.getElem?_eq_some_iff.mp found).1
      refine ⟨⟨sound.length, inside, sound.reported⟩,
        ⟨id, fun ended => absurd ended inside.ne, fun _ _ _ => id⟩, found,
        fun _ _ _ none => (by cases none), fun pos below => ?_⟩
      rcases Nat.lt_succ_iff_lt_or_eq.mp below with earlier | rfl
      · exact .inl earlier
      · exact .inr rfl
  | checking pos d =>
    simp only [worker] at step
    split at step <;> next outcome =>
      cases step
      refine ⟨sound, .refl s, ?_, fun _ _ _ held => .inr held, fun _ below => .inl below⟩
      first
        | exact ⟨d, carries, outcome⟩
        | exact ⟨carries, outcome⟩
  | storing pos t =>
    cases step
    obtain ⟨d, found, passes⟩ := carries
    have inside := (List.getElem?_eq_some_iff.mp found).1
    refine ⟨⟨by simp [sound.length], sound.within, sound.reported⟩,
      ⟨id, id, fun other e at_other => Settled.set found passes at_other⟩, trivial,
      fun other e at_other held => ?_, fun _ below => .inl below⟩
    obtain rfl := Option.some.inj held
    obtain rfl := Option.some.inj (found.symm.trans at_other)
    refine .inl ?_
    simp [Settled, passes, sound.length, inside]
  | failing pos d ex =>
    obtain ⟨found, fails⟩ := carries
    simp only [worker] at step
    split at step
    · next flag =>
      -- Another worker has reported before.
      cases step
      refine ⟨sound, .refl s, trivial, fun other e at_other held => ?_, fun _ below => .inl below⟩
      obtain rfl := Option.some.inj held
      obtain rfl := Option.some.inj (found.symm.trans at_other)
      exact .inl (by simpa [Settled, fails] using flag)
    · next flag =>
      cases step
      have unreported : s.onBad = [] := by simpa [flag] using sound.reported
      refine ⟨⟨sound.length, sound.within, ?_⟩, ⟨fun _ => rfl, id, ?_⟩, trivial, ?_,
        fun _ below => .inl below⟩
      · simp only [unreported, List.nil_append, if_true]
        exact ⟨_, ⟨rfl, found, fails⟩, rfl⟩
      · intro other e _ settled
        unfold Settled at settled ⊢
        split at settled
        · exact settled
        · rfl
      · intro other e at_other held
        obtain rfl := Option.some.inj held
        obtain rfl := Option.some.inj (found.symm.trans at_other)
        exact .inl (by simp [Settled, fails])
  | finished => cases step

/-- What holds of the pool at any time of any interleaving. -/
structure Invariant (check : Check Transaction Exception) (txRLP : List Bytes)
    (p : Pool 4 (Shared Transaction Exception) (Worker Transaction Exception)) : Prop where
  sound : Sound check txRLP p.shared
  carries : ∀ j, (p.threads j).Carries check txRLP p.shared
  covered : ∀ pos d, txRLP[pos]? = some d → pos < p.shared.i →
    Settled check p.shared pos d ∨ ∃ j, (p.threads j).inHand = some pos

theorem Worker.Carries.grows {s' : Shared Transaction Exception} (carries : w.Carries check txRLP s)
    (grows : Grows check txRLP s s') : w.Carries check txRLP s' := by
  cases w with
  | finished => exact carries.imp grows.flag grows.ended
  | _ => exact carries

theorem invariant_start [Inhabited Transaction] :
    Invariant check txRLP (start txRLP) where
  sound := ⟨by simp [start], Nat.zero_le _, by simp [start]⟩
  carries _ := trivial
  covered _ _ _ below := absurd below (Nat.not_lt_zero _)

theorem Invariant.step
    (p : Pool 4 (Shared Transaction Exception) (Worker Transaction Exception)) (i : Fin 4)
    (next : Shared Transaction Exception × Worker Transaction Exception)
    (inv : Invariant check txRLP p)
    (takes : worker check txRLP p.shared (p.threads i) = some next) :
    Invariant check txRLP (p.advance i next) := by
  have moved := stepsTo_of_worker inv.sound (inv.carries i) takes
  refine ⟨moved.sound, fun j => ?_, fun pos d found below => ?_⟩
  · -- The worker that moved carries what its step gave it.
    by_cases same : j = i
    · subst same
      simpa [Pool.advance] using moved.carries
    · simpa [Pool.advance, same] using (inv.carries j).grows moved.grows
  · have fresh : next.2.inHand = some pos →
        ∃ j, ((p.advance i next).threads j).inHand = some pos :=
      fun held => ⟨i, by simpa [Pool.advance] using held⟩
    rcases moved.takes pos below with earlier | held
    · rcases inv.covered pos d found earlier with settled | ⟨j, held⟩
      · exact .inl (moved.grows.kept pos d found settled)
      · by_cases same : j = i
        · subst same
          exact (moved.settles pos d found held).imp id fresh
        · exact .inr ⟨j, by simpa [Pool.advance, same] using held⟩
    · exact .inr (fresh held)

theorem Invariant.joined
    {p : Pool 4 (Shared Transaction Exception) (Worker Transaction Exception)}
    (inv : Invariant check txRLP p) (joined : p.Joined (worker check txRLP))
    (flag : p.shared.hasException = false) :
    txRLP.map check = p.shared.transactions.map .ok := by
  have finished : ∀ j, p.threads j = .finished := by
    intro j
    have done := joined j
    cases phase : p.threads j with
    | finished => rfl
    | _ =>
      rw [phase] at done
      simp only [worker] at done
      try split at done
      all_goals cases done
  -- A worker is done only once the cursor has passed the last transaction.
  have ended : p.shared.i = txRLP.length := by
    have carries := inv.carries 0
    rw [finished 0] at carries
    exact carries.resolve_left (by simp [flag])
  have settled : ∀ pos d, txRLP[pos]? = some d → Settled check p.shared pos d := by
    intro pos d found
    have inside := (List.getElem?_eq_some_iff.mp found).1
    rcases inv.covered pos d found (ended ▸ inside) with settled | ⟨j, held⟩
    · exact settled
    · rw [finished j] at held
      cases held
  refine List.ext_getElem? fun pos => ?_
  cases found : txRLP[pos]? with
  | none =>
    have beyond : p.shared.transactions[pos]? = none := by
      rw [List.getElem?_eq_none_iff, inv.sound.length]
      exact List.getElem?_eq_none_iff.mp found
    simp [found, beyond]
  | some d =>
    have done := settled pos d found
    unfold Settled at done
    split at done
    · next t passes => simp [found, done, passes]
    · rw [flag] at done
      cases done

/-- Once all workers are done, a transaction that fails its check has raised the flag. -/
theorem Invariant.flagged
    {p : Pool 4 (Shared Transaction Exception) (Worker Transaction Exception)}
    (inv : Invariant check txRLP p) (joined : p.Joined (worker check txRLP)) {d : Bytes}
    {ex : Exception} (member : d ∈ txRLP) (fails : check d = .error ex) :
    p.shared.hasException = true := by
  cases flag : p.shared.hasException with
  | true => rfl
  | false =>
    -- Without the flag every transaction would have passed.
    have passed : check d ∈ p.shared.transactions.map .ok :=
      inv.joined joined flag ▸ List.mem_map_of_mem member
    obtain ⟨t, -, passes⟩ := List.mem_map.mp passed
    cases passes.trans fails

end Loop

section Sequential

variable {check : Check Transaction Exception}

theorem verifyFrom_ok {rest : List Bytes} {transactions : List Transaction} {i : ℕ}
    {done : List Transaction} (pass : rest.map check = transactions.map .ok) :
    verifyFrom check i rest done = (.returns (done ++ transactions), []) := by
  induction rest generalizing transactions i done with
  | nil =>
    obtain rfl : transactions = [] := by simpa using pass.symm
    simp [verifyFrom]
  | cons d rest ih =>
    obtain _ | ⟨t, transactions⟩ := transactions
    · cases pass
    · simp only [List.map_cons, List.cons.injEq] at pass
      rw [verifyFrom, pass.1]
      exact (ih pass.2).trans (by rw [List.append_assoc, List.singleton_append])

theorem verifyFrom_error {rest : List Bytes} {d : Bytes} {ex : Exception} {i : ℕ}
    {done : List Transaction} (member : d ∈ rest) (fails : check d = .error ex) :
    ∃ e, (verifyFrom check i rest done).1 = .throws e := by
  induction rest generalizing i done with
  | nil => cases member
  | cons first rest ih =>
    rw [verifyFrom]
    cases outcome : check first with
    | error e => exact ⟨e, rfl⟩
    | ok t =>
      -- The failing transaction is a later one.
      rcases List.mem_cons.mp member with rfl | later
      · cases outcome.symm.trans fails
      · exact ih later

end Sequential

section Agreement

variable [Inhabited Transaction] (check : Check Transaction Exception) (txRLP : List Bytes)

/-- The four workers stop after boundedly many steps in every interleaving, and at the end they
have done what the sequential version does exactly when no transaction failed its check. -/
theorem agrees_iff_passes :
    (∃ k p, Pool.Interleaves (worker check txRLP) k (start txRLP) p ∧
      p.Joined (worker check txRLP)) ∧
    ∀ k p, Pool.Interleaves (worker check txRLP) k (start txRLP) p →
      k ≤ 4 * txRLP.length + 8 ∧
      (p.Joined (worker check txRLP) →
        (Agrees check txRLP p.shared ↔ ∀ d ∈ txRLP, ∃ t, check d = .ok t)) := by
  refine ⟨Pool.exists_joined (stepsLeft txRLP) stepsLeft_falls _, fun k p run => ⟨?_, ?_⟩⟩
  · have bounded := run.bounded (stepsLeft txRLP) stepsLeft_falls
    rw [show stepsLeft txRLP (start txRLP : Pool 4 (Shared Transaction Exception) _) =
      4 * txRLP.length + 8 by simp [stepsLeft, start, Worker.left]] at bounded
    omega
  · intro joined
    have inv := run.keeps Invariant.step invariant_start
    constructor
    · -- A report is always followed by the end of the process.
      intro agrees
      by_contra bad
      push Not at bad
      obtain ⟨d, member, fails⟩ := bad
      cases outcome : check d with
      | ok t => exact fails t outcome
      | error ex =>
        obtain ⟨e, throws⟩ : ∃ e, (verifyFrom check 0 txRLP []).1 = .throws e :=
          verifyFrom_error member outcome
        rw [Agrees, verifySequentially, throws] at agrees
        obtain ⟨bad, -, -, ended⟩ := agrees
        rw [join, inv.flagged joined member outcome, if_pos rfl] at ended
        cases ended
    · intro pass
      have unflagged : p.shared.hasException = false := by
        cases flag : p.shared.hasException with
        | false => rfl
        | true =>
          -- Whatever was reported did fail.
          obtain ⟨bad, ⟨-, found, fails⟩, -⟩ : ∃ bad, Reports check txRLP bad ∧
              p.shared.onBad = [bad] := by simpa [flag] using inv.sound.reported
          obtain ⟨t, passes⟩ := pass _ (List.mem_of_getElem? found)
          cases passes.symm.trans fails
      have filled := inv.joined joined unflagged
      have quiet : p.shared.onBad = [] := by simpa [unflagged] using inv.sound.reported
      simp [Agrees, verifySequentially, verifyFrom_ok filled, join, unflagged, quiet]

end Agreement

/-- One bad transaction: the sequential version throws, and the four workers end the process. -/
theorem bad_transaction_ends_process :
    verifySequentially (fun _ => .error ()) [[0xc0]] =
      ((.throws () : Verified Bytes Unit), [⟨1, 0, [0xc0], ()⟩]) ∧
    ∃ k p, Pool.Interleaves (worker (fun _ => .error ()) [[0xc0]]) k (start [[0xc0]]) p ∧
      p.Joined (worker (fun _ => .error ()) [[0xc0]]) ∧
      join p.shared = (.terminates : Verified Bytes Unit) := by
  refine ⟨rfl, ?_⟩
  obtain ⟨k, p, run, joined⟩ := Pool.exists_joined (stepsLeft [[0xc0]])
    (@stepsLeft_falls Bytes Unit (fun _ => .error ()) [[0xc0]]) (start [[0xc0]])
  have inv := run.keeps Invariant.step invariant_start
  refine ⟨k, p, run, joined, ?_⟩
  rw [join, inv.flagged joined (List.mem_singleton_self _) rfl, if_pos rfl]

end VerifyBlock

end Etiam
