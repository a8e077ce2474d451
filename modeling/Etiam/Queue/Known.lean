import Etiam.Queue.Calls

/-! What the transaction queue holds agrees with its indices, its counter and its known hashes. -/

namespace Etiam

namespace TransactionQueue

open Exec

variable {q : TransactionQueue} {host : QueueHost} {sha3 : Transaction → Hash}

/-- Every known hash is the hash of a transaction that is held. -/
def Backed (q : TransactionQueue) : Prop := ∀ h ∈ q.known, ∃ v ∈ q.held, v.hash = h

section Unlinking

variable {n : QueueNode}

theorem Covered.unlink (covered : q.Covered) (consistent : q.Consistent)
    (member : n ∈ q.current) : (q.unlink n n.item.hash).Covered := by
  -- The hash that is forgotten belongs to no other transaction.
  intro v present
  have taken := consistent.held_unlink member
  have hashes := consistent.hashes
  rw [(taken.map VerifiedTransaction.hash).nodup_iff, List.map_cons, List.nodup_cons] at hashes
  refine Finset.mem_erase.mpr ⟨?_, ?_⟩
  · intro same
    exact hashes.1 (List.mem_map.mpr ⟨v, present, same⟩)
  · exact covered v (taken.mem_iff.mpr (List.mem_cons_of_mem n.item present))

theorem Backed.unlink (backed : q.Backed) (consistent : q.Consistent) (member : n ∈ q.current) :
    (q.unlink n n.item.hash).Backed := by
  intro h known
  obtain ⟨other, before⟩ := Finset.mem_erase.mp known
  obtain ⟨v, present, rfl⟩ := backed h before
  have taken := consistent.held_unlink member
  obtain rfl | left := List.mem_cons.mp (taken.mem_iff.mp present)
  · exact absurd rfl other
  · exact ⟨v, left, rfl⟩

theorem Shortened.covered {s : TransactionQueue} (shortened : Shortened q s)
    (consistent : q.Consistent) (covered : q.Covered) : s.Covered := by
  induction shortened with
  | refl => exact covered
  | last final _ ih =>
    have member := List.mem_of_getLast? final
    exact ih (consistent.unlink member) (covered.unlink consistent member)

theorem Shortened.backed {s : TransactionQueue} (shortened : Shortened q s)
    (consistent : q.Consistent) (backed : q.Backed) : s.Backed := by
  induction shortened with
  | refl => exact backed
  | last final _ ih =>
    have member := List.mem_of_getLast? final
    exact ih (consistent.unlink member) (backed.unlink consistent member)

end Unlinking

theorem Consistent.length_advancedAll {next : List VerifiedTransaction} (consistent : q.Consistent)
    (host : QueueHost) (members : ∀ v ∈ next, v ∈ q.future)
    (distinct : (next.map VerifiedTransaction.slot).Nodup) :
    (q.advancedAll host next).future.length + next.length = q.future.length := by
  induction next generalizing q with
  | nil => rfl
  | cons v rest ih =>
    rw [List.map_cons, List.nodup_cons] at distinct
    have here := members v List.mem_cons_self
    have left := mem_future_rest host members distinct.1
    have others := ih (consistent.advanced host here) left distinct.2
    have one := consistent.length_advanced host here
    change ((q.advanced host v).advancedAll host rest).future.length + (rest.length + 1) = _
    omega

/-- There is room for the future transactions that are left when a transaction takes some along. -/
def Room (q : TransactionQueue) (t : Transaction) : Prop :=
  q.future.length ≤ q.futureLimit.toNat + (q.successors t).length

theorem Room.idle {t : Transaction} (room : q.Room t) (consistent : q.Consistent)
    {p : TransactionQueue} (thinned : Thinned (q.advancedAll host (q.successors t)) p) :
    p = q.advancedAll host (q.successors t) := by
  obtain ⟨settled, -, -, limit⟩ := consistent.advancedAll host t
  apply thinned.idle
  have count := consistent.length_advancedAll host
    (fun v member => (successors_mem (t := t) member).1) (following_nodup _ _)
  have small : (q.advancedAll host (q.successors t)).future.length ≤ q.futureLimit.toNat := by
    unfold Room at room
    change (q.advancedAll host (q.successors t)).future.length + (q.successors t).length =
        _ at count
    omega
  rw [settled.size, limit, BitVec.le_def, BitVec.toNat_ofNat]
  exact (Nat.mod_le _ _).trans small

theorem Backed.advancedAll {t : Transaction} {p : TransactionQueue} (backed : q.Backed)
    (consistent : q.Consistent) (room : q.Room t)
    (thinned : Thinned (q.advancedAll host (q.successors t)) p) : p.Backed := by
  obtain ⟨-, perm, known, -⟩ := consistent.advancedAll host t
  rw [room.idle consistent thinned]
  intro h present
  rw [known] at present
  obtain ⟨v, member, hashed⟩ := backed h present
  exact ⟨v, perm.mem_iff.mpr member, hashed⟩

section Steps

variable {c : Call} {s : TransactionQueue}

theorem Imported.covered {v : VerifiedTransaction} (imported : Imported host q v s)
    (consistent : q.Consistent) (covered : q.Covered) (unknown : v.hash ∉ q.known)
    (sent : v.sent = true) : s.Covered := by
  obtain ⟨vacant, -, thinned, shortened⟩ := imported
  obtain ⟨slot, hash⟩ := consistent.replaced_apart vacant
    fun w member same => unknown (same ▸ covered w member)
  obtain ⟨settled, items, known, fewer, -⟩ := consistent.replaced v
  obtain ⟨-, perm, joined, -⟩ := settled.joined host slot hash sent
  apply shortened.covered (thinned.consistent.record _ _)
  intro w member
  change w.hash ∈ insert v.hash _
  rw [thinned.known, joined, known]
  obtain rfl | before := List.mem_cons.mp (perm.mem_iff.mp (thinned.held_subset member))
  · exact Finset.mem_insert_self _ _
  · apply Finset.mem_insert_of_mem
    obtain current | future := List.mem_append.mp before
    · exact covered w (List.mem_append_left _ (items ▸ current))
    · exact covered w (future_mem_held (fewer future))

theorem Imported.backed {v : VerifiedTransaction} (imported : Imported host q v s)
    (consistent : q.Consistent) (backed : q.Backed) (unknown : ∀ w ∈ q.held, w.hash ≠ v.hash)
    (sent : v.sent = true)
    (unbid : ∀ w ∈ q.future, w.slot = v.slot → v.transaction.gasPrice < w.transaction.gasPrice)
    (room : q.Room v.transaction) : s.Backed := by
  obtain @⟨p, s, vacant, beaten, thinned, shortened⟩ := imported
  -- What is filed under the slot would have to be both cheaper and dearer.
  have free : ∀ w ∈ q.future, w.slot ≠ v.slot := by
    intro w member same
    exact absurd (beaten w member same) (BitVec.not_le.mpr (unbid w member same))
  rw [replaced_eq_self free] at thinned
  have slot : ∀ w ∈ q.held, w.slot ≠ v.slot := by
    intro w member
    obtain current | future := List.mem_append.mp member
    · exact vacant w current
    · exact free w future
  obtain ⟨-, perm, joined, -⟩ := consistent.joined host slot unknown sent
  have entered := consistent.entered (place host q v) slot unknown sent
  have roomy : (q.entered (place host q v) v).Room v.transaction := room
  have same : p = q.joined host v := roomy.idle entered thinned
  apply shortened.backed (thinned.consistent.record _ _)
  subst same
  intro h known
  change h ∈ insert v.hash (q.joined host v).known at known
  rw [joined] at known
  obtain rfl | before := Finset.mem_insert.mp known
  · exact ⟨v, perm.mem_iff.mpr List.mem_cons_self, rfl⟩
  · obtain ⟨w, member, hashed⟩ := backed h before
    exact ⟨w, perm.mem_iff.mpr (List.mem_cons_of_mem v member), hashed⟩

theorem consistent_cleared (q : TransactionQueue) : q.cleared.Consistent where
  handles := List.nodup_nil
  older := by simp [cleared, fresh]
  byHash := by simp [cleared, fresh]
  byNonce := List.Perm.nil
  slots := List.nodup_nil
  hashes := List.nodup_nil
  size := rfl
  sent := by simp [cleared, fresh, held, items]

variable (stepped : Stepped host sha3 q c s)

include stepped

theorem Stepped.consistent (consistent : q.Consistent) : s.Consistent := by
  cases stepped with
  | turnedAway | notCurrent | notKnown => exact consistent
  | imported _ imported => exact imported.consistent
  | postponed _ postponed => exact postponed.consistent
  | noted h => exact consistent.record q.known (insert h q.dropped)
  | @dropped n member =>
    have settled : (q.withDropped n.item.hash).Consistent :=
      consistent.record q.known (insert n.item.hash q.dropped)
    exact settled.unlink member
  | followed thinned => exact thinned.consistent
  | mined thinned member => exact thinned.consistent.unlink member
  | cleared => exact consistent_cleared q

theorem Stepped.covered (consistent : q.Consistent) (covered : q.Covered)
    (recoverable : c.Recoverable) : s.Covered := by
  cases stepped with
  | turnedAway | notCurrent | notKnown | noted => exact covered
  | imported unknown imported => exact imported.covered consistent covered unknown recoverable
  | postponed _ postponed =>
    intro v member
    rw [postponed.known]
    exact covered v (postponed.held.mem_iff.mp member)
  | @dropped n member =>
    have settled : (q.withDropped n.item.hash).Consistent :=
      consistent.record q.known (insert n.item.hash q.dropped)
    exact Covered.unlink covered settled member
  | @followed t p thinned =>
    obtain ⟨-, perm, known, -⟩ := consistent.advancedAll host t
    intro v member
    rw [thinned.known, known]
    exact covered v (perm.mem_iff.mp (thinned.held_subset member))
  | @mined t p n thinned present =>
    obtain ⟨-, perm, known, -⟩ := consistent.advancedAll host t
    apply Covered.unlink _ thinned.consistent present
    intro v member
    rw [thinned.known, known]
    exact covered v (perm.mem_iff.mp (thinned.held_subset member))
  | cleared =>
    intro v member
    cases member

/-- The calls after which every known hash is still held: they replace and drop no future one. -/
def Careful (q : TransactionQueue) : Call → Prop
  | .importTransaction t _ =>
    (∀ w ∈ q.future, w.slot = (t.safeSender, t.nonce) → t.gasPrice < w.transaction.gasPrice) ∧
      q.Room t
  | .dropGood t => q.Room t
  | _ => True

theorem Stepped.backed (consistent : q.Consistent) (covered : q.Covered)
    (recoverable : c.Recoverable) (careful : q.Careful c) (backed : q.Backed) : s.Backed := by
  cases stepped with
  | turnedAway | notCurrent | notKnown | noted => exact backed
  | @imported t _ _ unknown imported =>
    obtain ⟨unbid, room⟩ := careful
    have fresh : ∀ w ∈ q.held, w.hash ≠ sha3 t := fun w member same =>
      unknown (same ▸ covered w member)
    exact imported.backed consistent backed fresh recoverable unbid room
  | postponed _ postponed =>
    intro h known
    rw [postponed.known] at known
    obtain ⟨v, member, hashed⟩ := backed h known
    exact ⟨v, postponed.held.mem_iff.mpr member, hashed⟩
  | @dropped n member =>
    have settled : (q.withDropped n.item.hash).Consistent :=
      consistent.record q.known (insert n.item.hash q.dropped)
    exact Backed.unlink backed settled member
  | followed thinned => exact (backed.advancedAll consistent careful thinned)
  | mined thinned member =>
    exact (backed.advancedAll consistent careful thinned).unlink thinned.consistent member
  | cleared =>
    intro h known
    exact absurd known (Finset.notMem_empty h)

end Steps

section Runs

variable {limit futureLimit : BitVec 32}

/-- Calls that are all careful, each in the state that the calls before it leave. -/
def CarefulRun (sha3 : Transaction → Hash) : TransactionQueue → List (QueueHost × Call) → Prop
  | _, [] => True
  | q, c :: rest => q.Careful c.2 ∧ CarefulRun sha3 (final ((call c.1 sha3 c.2).run q)) rest

instance (q : TransactionQueue) (t : Transaction) : Decidable (q.Room t) :=
  inferInstanceAs (Decidable (_ ≤ _))

instance (q : TransactionQueue) : (c : Call) → Decidable (q.Careful c)
  | .importTransaction _ _ => inferInstanceAs (Decidable (_ ∧ _))
  | .dropGood t => inferInstanceAs (Decidable (q.Room t))
  | .setFuture _ => inferInstanceAs (Decidable True)
  | .drop _ => inferInstanceAs (Decidable True)
  | .clear => inferInstanceAs (Decidable True)

instance (sha3 : Transaction → Hash) : (q : TransactionQueue) →
    (made : List (QueueHost × Call)) → Decidable (CarefulRun sha3 q made)
  | _, [] => inferInstanceAs (Decidable True)
  | q, c :: rest =>
    have : Decidable (CarefulRun sha3 (final ((call c.1 sha3 c.2).run q)) rest) :=
      instDecidableCarefulRun sha3 _ rest
    inferInstanceAs (Decidable (_ ∧ _))

/-- What holds after every call that starts where it holds, holds after a run of calls. -/
theorem Consistent.calls_run {made : List (QueueHost × Call)} (consistent : q.Consistent)
    (covered : q.Covered) (recoverable : ∀ c ∈ made, c.2.Recoverable)
    (sha3 : Transaction → Hash) :
    ∃ s, (calls sha3 made).run q = .ok () s ∧ s.Consistent ∧ s.Covered ∧
      (q.Backed → CarefulRun sha3 q made → s.Backed) := by
  -- The induction is on the calls, each of which ends in a consistent queue.
  induction made generalizing q with
  | nil => exact ⟨q, rfl, consistent, covered, fun backed _ => backed⟩
  | cons c rest ih =>
    have fine := recoverable c List.mem_cons_self
    obtain ⟨m, ran, stepped⟩ := consistent.call_run covered c.2 fine c.1 sha3
    obtain ⟨s, later, settled, noted, kept⟩ := ih (stepped.consistent consistent)
      (stepped.covered consistent covered fine)
      fun d member => recoverable d (List.mem_cons_of_mem c member)
    refine ⟨s, ?_, settled, noted, ?_⟩
    · rw [calls, forM_cons, bind_ok ran]
      exact later
    · rintro backed ⟨careful, onward⟩
      rw [ran] at onward
      exact kept (stepped.backed consistent covered fine careful backed) onward

/-- The queue holds together in every run, and no hash outlives its transaction in a careful one. -/
theorem calls_keep_known (sha3 : Transaction → Hash) (limit futureLimit : BitVec 32)
    (made : List (QueueHost × Call)) (recoverable : ∀ c ∈ made, c.2.Recoverable) :
    ∃ q, (calls sha3 made).run (fresh limit futureLimit) = .ok () q ∧
      q.Consistent ∧
      (∀ v ∈ q.items, ∀ w ∈ q.future, v.slot ≠ w.slot) ∧
      (q.future.length < 2 ^ 32 → q.futureSize.toNat = q.future.length) ∧
      (CarefulRun sha3 (fresh limit futureLimit) made →
        ∀ h, h ∈ q.known ↔ ∃ v ∈ q.held, v.hash = h) := by
  have empty : (fresh limit futureLimit).Covered := by
    intro v member
    cases member
  obtain ⟨q, ran, consistent, covered, kept⟩ :=
    (consistent_fresh limit futureLimit).calls_run empty recoverable sha3
  refine ⟨q, ran, consistent, ?_, ?_, ?_⟩
  · intro v current w future
    exact consistent.apart current future
  · intro small
    rw [consistent.size, BitVec.toNat_ofNat]
    exact Nat.mod_eq_of_lt small
  · intro careful h
    have backed := kept (fun h known => absurd known (Finset.notMem_empty h)) careful
    constructor
    · exact backed h
    · rintro ⟨v, member, rfl⟩
      exact covered v member

/-- A host that searches from the front and drops the future transactions of the first sender. -/
def plainHost : QueueHost where
  seek := fun less items v => (items.takeWhile fun x => !less v x).length
  meets := fun _ _ _ => true
  first := fun future => (future.head?.map fun v => v.transaction.safeSender).getD 0
  seek_split := by
    intro less before after v left right
    rw [List.takeWhile_append_of_pos fun x member => by rw [left x member]; rfl, List.length_append]
    cases after with
    | nil => rfl
    | cons x rest => simp [right x List.mem_cons_self]
  first_mem := by
    intro future some_left
    cases future with
    | nil => exact absurd rfl some_left
    | cons v rest => exact ⟨v, List.mem_cons_self, rfl⟩

/-- A transaction of a sender, or of nobody that can be told. -/
def sampleTransaction (sender : Except TransactionError Address) (nonce gasPrice : U256) :
    Transaction where
  nonce
  gasPrice
  gas := 0
  receiveAddress := none
  value := 0
  data := []
  hasZeroSignature := false
  recovered := sender

/-- Hashes that tell the sample transactions apart. -/
def sampleHash (t : Transaction) : Hash :=
  t.safeSender.setWidth 256 + 1000 * t.nonce + 1000000 * t.gasPrice

/-- Calls that import transactions at the given prices and nonces. -/
def sampleImport (sender : Except TransactionError Address) (nonce gasPrice : U256) :
    QueueHost × Call :=
  (plainHost, .importTransaction (sampleTransaction sender nonce gasPrice) .ignore)

/-- The queue after a run of calls with the given limit for future transactions. -/
def sampleRun (futureLimit : BitVec 32) (made : List (QueueHost × Call)) :
    EStateM.Result QueueFault TransactionQueue Unit :=
  (calls sampleHash made).run (fresh 10 futureLimit)

/-- Calls that put the second of two transactions off. -/
def samplePutOff : List (QueueHost × Call) :=
  [sampleImport (.ok 5) 0 1, sampleImport (.ok 5) 1 1,
    (plainHost, .setFuture (sampleHash (sampleTransaction (.ok 5) 1 1)))]

/-- Whether a run ended with a hash that is known though its transaction is not held. -/
def Stale (r : EStateM.Result QueueFault TransactionQueue Unit) (h : Hash) : Prop :=
  raised r = none ∧ h ∈ (final r).known ∧ ∀ v ∈ (final r).held, v.hash ≠ h

instance (r : EStateM.Result QueueFault TransactionQueue Unit) (h : Hash) : Decidable (Stale r h) :=
  inferInstanceAs (Decidable (_ ∧ _ ∧ _))

/-- A transaction that is put off comes back when the one before it is in a block. -/
theorem calls_keep_known_returned :
    ∃ q, sampleRun 10 (samplePutOff ++
        [(plainHost, .dropGood (sampleTransaction (.ok 5) 0 1))]) = .ok () q ∧
      q.Consistent ∧ ∀ h, h ∈ q.known ↔ ∃ v ∈ q.held, v.hash = h := by
  have recoverable : ∀ c ∈ samplePutOff ++
      [(plainHost, Call.dropGood (sampleTransaction (.ok 5) 0 1))], c.2.Recoverable := by
    simp [samplePutOff, sampleImport, Call.Recoverable, sampleTransaction, Transaction.sender,
      Except.isOk, Except.toBool]
  obtain ⟨q, ran, consistent, -, -, known⟩ := calls_keep_known sampleHash 10 10 _ recoverable
  exact ⟨q, ran, consistent, known (by decide +kernel)⟩

/-- A future transaction that is replaced, or dropped past the limit, stays known, and one of no
sender that can be told leaves an entry of the index that leads nowhere. -/
theorem calls_leave_known :
    Stale (sampleRun 10 (samplePutOff ++ [sampleImport (.ok 5) 1 2]))
      (sampleHash (sampleTransaction (.ok 5) 1 1)) ∧
    Stale (sampleRun 0 (samplePutOff ++ [sampleImport (.ok 6) 0 1]))
      (sampleHash (sampleTransaction (.ok 5) 1 1)) ∧
    ∃ q, sampleRun 10 [sampleImport (.ok 5) 0 1,
        sampleImport (.error .invalidSignature) 7 1] = .ok () q ∧
      (q.entry (0, 7)).isSome = true ∧ ∀ n ∈ q.current, n.item.slot ≠ (0, 7) := by
  refine ⟨by decide +kernel, by decide +kernel, _, rfl, ?_, ?_⟩
  · decide +kernel
  · decide +kernel

end Runs

end TransactionQueue

end Etiam
