import Etiam.Queue.Consistent

/-! What each call on a consistent transaction queue does to it. -/

namespace Etiam

namespace TransactionQueue

open Exec

section Importing

variable {q : TransactionQueue} {v : VerifiedTransaction} {host : QueueHost}

/-- The queue after a transaction was entered, with all that follows it. -/
def joined (host : QueueHost) (q : TransactionQueue) (v : VerifiedTransaction) :
    TransactionQueue :=
  (q.entered (place host q v) v).advancedAll host (q.successors v.transaction)

/-- What importing a transaction makes of the queue. -/
inductive Imported (host : QueueHost) (q : TransactionQueue) (v : VerifiedTransaction) :
    TransactionQueue → Prop where
  | intro {p s : TransactionQueue} (vacant : ∀ w ∈ q.items, w.slot ≠ v.slot)
    (beaten : ∀ w ∈ q.future, w.slot = v.slot →
      w.transaction.gasPrice ≤ v.transaction.gasPrice)
    (thinned : Thinned ((q.replaced v).joined host v) p)
    (shortened : Shortened { p with known := insert v.hash p.known } s) : Imported host q v s

theorem Consistent.replaced (consistent : q.Consistent) (v : VerifiedTransaction) :
    (q.replaced v).Consistent ∧ (q.replaced v).items = q.items ∧
      (q.replaced v).known = q.known ∧ (q.replaced v).future ⊆ q.future ∧
      ∀ w ∈ (q.replaced v).future, w.slot ≠ v.slot := by
  -- Either nothing is filed under the slot, or what is there is forgotten.
  rw [TransactionQueue.replaced]
  cases found : q.futureAt v.slot with
  | none =>
    rw [if_neg (by simp)]
    exact ⟨consistent, rfl, rfl, List.Subset.refl _, Keyed.find?_eq_none.mp found⟩
  | some w =>
    obtain ⟨member, named⟩ := Keyed.mem_of_find? found
    have same : q.forgot v = q.forgot w := by
      rw [TransactionQueue.forgot, TransactionQueue.forgot, named]
    rw [if_pos (by simp), same]
    refine ⟨consistent.forgot member, rfl, rfl, List.filter_sublist.subset, ?_⟩
    intro x kept
    simpa [named] using (List.mem_filter.mp kept).2

/-- After that the new transaction gets in nobody's way. -/
theorem Consistent.replaced_apart (consistent : q.Consistent)
    (vacant : ∀ w ∈ q.items, w.slot ≠ v.slot) (unknown : ∀ w ∈ q.held, w.hash ≠ v.hash) :
    (∀ w ∈ (q.replaced v).held, w.slot ≠ v.slot) ∧
      ∀ w ∈ (q.replaced v).held, w.hash ≠ v.hash := by
  obtain ⟨-, items, -, fewer, free⟩ := consistent.replaced v
  constructor
  · intro w member
    obtain current | future := List.mem_append.mp member
    · exact vacant w (items ▸ current)
    · exact free w future
  · intro w member
    obtain current | future := List.mem_append.mp member
    · exact unknown w (List.mem_append_left _ (items ▸ current))
    · exact unknown w (future_mem_held (fewer future))

theorem replaced_eq_self (vacant : ∀ w ∈ q.future, w.slot ≠ v.slot) : q.replaced v = q := by
  have nothing : q.futureAt v.slot = none := Keyed.find?_eq_none.mpr vacant
  rw [TransactionQueue.replaced, nothing]
  rfl

theorem Consistent.advancedAll (consistent : q.Consistent) (host : QueueHost) (t : Transaction) :
    (q.advancedAll host (q.successors t)).Consistent ∧
      (q.advancedAll host (q.successors t)).held.Perm q.held ∧
      (q.advancedAll host (q.successors t)).known = q.known ∧
      (q.advancedAll host (q.successors t)).futureLimit = q.futureLimit := by
  apply consistent.advancedAll_induction host (fun v member => (successors_mem member).1)
    (following_nodup _ _) (motive := fun p => p.held.Perm q.held ∧ p.known = q.known ∧
      p.futureLimit = q.futureLimit)
  · exact ⟨List.Perm.refl _, rfl, rfl⟩
  · rintro p v settled - member ⟨perm, known, limit⟩
    exact ⟨(settled.held_advanced host member).trans perm, known, limit⟩

theorem Consistent.joined (consistent : q.Consistent) (host : QueueHost)
    (slot : ∀ w ∈ q.held, w.slot ≠ v.slot) (hash : ∀ w ∈ q.held, w.hash ≠ v.hash)
    (sent : v.sent = true) :
    (q.joined host v).Consistent ∧ (q.joined host v).held.Perm (v :: q.held) ∧
      (q.joined host v).known = q.known ∧ (q.joined host v).futureLimit = q.futureLimit := by
  obtain ⟨settled, perm, known, limit⟩ :=
    (consistent.entered (place host q v) slot hash sent).advancedAll host v.transaction
  exact ⟨settled, perm.trans (held_entered_perm q _ v), known, limit⟩

/-- An import either turns the transaction away or makes it current. -/
theorem Consistent.manageImport_run (consistent : q.Consistent) (host : QueueHost)
    (sent : v.sent = true) (unknown : ∀ w ∈ q.held, w.hash ≠ v.hash) :
    (∃ result, (manageImport host v).run q = .ok result q) ∨
      ∃ s, (manageImport host v).run q = .ok .success s ∧ Imported host q v s := by
  rw [manageImport, run_get_bind]
  cases found : q.entry v.slot with
  | some e =>
    -- The slot is taken by a current transaction, which stays.
    left
    obtain ⟨n, -, -, led⟩ := consistent.entry_eq_some found
    simp only [led]
    split
    · exact ⟨_, rfl⟩
    · exact ⟨_, rfl⟩
  | none =>
    simp only
    have vacant : ∀ w ∈ q.items, w.slot ≠ v.slot := by
      intro w member same
      obtain ⟨n, present, rfl⟩ := mem_items.mp member
      exact Keyed.find?_eq_none.mp found n.entry
        (consistent.byNonce.mem_iff.mpr (List.mem_map_of_mem present)) same
    split
    · exact .inl ⟨_, rfl⟩
    · next unbeaten =>
      right
      have settled := (consistent.replaced v).1
      obtain ⟨slot, hash⟩ := consistent.replaced_apart vacant unknown
      have absent : (q.replaced v).currentByHash v.hash = none := by
        cases led : (q.replaced v).currentByHash v.hash with
        | none => rfl
        | some handle =>
          obtain ⟨n, present, -, same⟩ := (settled.byHash _ _).mp led
          exact absurd same (hash n.item (item_mem_held present))
      have entering := enter_run host
        (settled.entry_eq_none fun w current => slot w (List.mem_append_left _ current)) sent
        fun x current => settled.sent x (List.mem_append_left _ current)
      obtain ⟨p, moved, thinned⟩ := (settled.entered (place host (q.replaced v) v) slot hash
        sent).makeCurrent_run host v.transaction
      have inserted : (insertCurrent host v).run (q.replaced v) =
          .ok () { p with known := insert v.hash p.known } := by
        rw [insertCurrent, run_get_bind, absent]
        simp only [Option.isSome_none, Bool.false_eq_true, if_false]
        rw [bind_ok entering, bind_ok moved, run_modify]
      obtain ⟨s, trimmed, shortened⟩ :=
        (thinned.consistent.record (insert v.hash p.known) p.dropped).trimCurrent_run
          p.current.length
      refine ⟨s, ?_, .intro vacant ?_ thinned shortened⟩
      · have started : (set (q.replaced v) : QueueM PUnit).run q = .ok () (q.replaced v) := rfl
        rw [bind_ok started, bind_ok inserted, run_get_bind, bind_ok trimmed]
        rfl
      · intro w member same
        have located : q.futureAt v.slot = some w :=
          same ▸ Keyed.find?_eq_some consistent.future_slots member
        rw [located] at unbeaten
        simpa using unbeaten

theorem Imported.consistent {s : TransactionQueue} (imported : Imported host q v s) :
    s.Consistent := by
  obtain ⟨-, -, thinned, shortened⟩ := imported
  exact shortened.consistent (thinned.consistent.record _ _)

end Importing

section Postponing

variable {q : TransactionQueue} {n : QueueNode}

/-- The queue with other entries in its index by nonce. -/
def withEntries (q : TransactionQueue) (entries : List QueueEntry) : TransactionQueue :=
  { q with currentByAddressAndNonce := entries }

/-- The queue with one of its current transactions made a future one. -/
def postponed (q : TransactionQueue) (n : QueueNode) : TransactionQueue :=
  (q.postpone n).withEntries (q.currentByAddressAndNonce.filter fun e => e.slot != n.item.slot)

variable (consistent : q.Consistent)

include consistent

theorem Consistent.postpone_eq (member : n ∈ q.current) :
    q.postpone n =
      { q with
        currentByHash := Function.update q.currentByHash n.item.hash none
        future := q.future ++ [n.item]
        current := q.current.filter fun m => m.handle != n.handle
        futureSize := q.futureSize + 1 } := by
  have free : q.futureAt n.item.slot = none := by
    refine Keyed.find?_eq_none.mpr fun w future same => ?_
    exact consistent.apart (mem_items.mpr ⟨n, member, rfl⟩) future same.symm
  rw [postpone, free]
  rfl

theorem Consistent.held_postponed (member : n ∈ q.current) : (q.postponed n).held.Perm q.held := by
  -- The item leaves the current transactions and is appended to the future ones.
  have taken := consistent.held_unlink member
  rw [postponed, consistent.postpone_eq member]
  refine List.Perm.trans ?_ taken.symm
  change ((q.unlink n n.item.hash).items ++ (q.future ++ [n.item])).Perm _
  rw [← List.append_assoc]
  exact List.perm_append_comm

theorem Consistent.postponed (member : n ∈ q.current) : (q.postponed n).Consistent := by
  have moved := consistent.held_postponed member
  have form := consistent.postpone_eq member
  refine ⟨?_, ?_, ?_, ?_, ?_, ?_, ?_, ?_⟩
  · rw [TransactionQueue.postponed, form]
    exact (consistent.unlink member).handles
  · rw [TransactionQueue.postponed, form]
    exact (consistent.unlink member).older
  · rw [TransactionQueue.postponed, form]
    exact (consistent.unlink member).byHash
  · rw [TransactionQueue.postponed, form]
    exact (consistent.unlink member).byNonce
  · exact (moved.map VerifiedTransaction.slot).nodup_iff.mpr consistent.slots
  · exact (moved.map VerifiedTransaction.hash).nodup_iff.mpr consistent.hashes
  · rw [TransactionQueue.postponed, form]
    change q.futureSize + 1 = BitVec.ofNat 32 (q.future ++ [n.item]).length
    rw [List.length_append, List.length_singleton, BitVec.ofNat_add, consistent.size]
    rfl
  · intro v present
    exact consistent.sent v (moved.mem_iff.mp present)

/-- What making a current transaction and those after it future ones makes of the queue. -/
structure Postponed (q : TransactionQueue) (later : Address × U256 → Bool)
    (s : TransactionQueue) : Prop where
  consistent : s.Consistent
  held : s.held.Perm q.held
  known : s.known = q.known
  current : s.current = q.current.filter fun m => !later m.item.slot
  entries : s.currentByAddressAndNonce = q.currentByAddressAndNonce.filter fun e => !later e.slot

theorem Consistent.forM_postponeEntry_run {moved : List QueueEntry}
    (members : ∀ e ∈ moved, e ∈ q.currentByAddressAndNonce)
    (distinct : (moved.map QueueEntry.slot).Nodup) (entries : List QueueEntry) :
    ∃ s, (moved.forM postponeEntry).run (q.withEntries entries) = .ok () (s.withEntries entries) ∧
      Postponed q (fun slot => decide (slot ∈ moved.map QueueEntry.slot)) s := by
  induction moved generalizing q with
  | nil =>
    refine ⟨q, rfl, consistent, List.Perm.refl _, rfl, ?_, ?_⟩
    · simp
    · simp
  | cons e rest ih =>
    rw [List.map_cons, List.nodup_cons] at distinct
    obtain ⟨n, member, rfl⟩ :=
      List.mem_map.mp (consistent.byNonce.mem_iff.mp (members e List.mem_cons_self))
    have turn : (postponeEntry n.entry).run (q.withEntries entries) =
        .ok () ((q.postponed n).withEntries entries) := by
      have led : n.entry.handle.bind (q.withEntries entries).node = some n :=
        consistent.node_eq member
      rw [postponeEntry, run_get_bind, led]
      rfl
    have left : ∀ e ∈ rest, e ∈ (q.postponed n).currentByAddressAndNonce := by
      intro e later
      refine List.mem_filter.mpr ⟨members e (List.mem_cons_of_mem _ later), ?_⟩
      simp only [bne_iff_ne]
      intro same
      exact distinct.1 (List.mem_map.mpr ⟨e, later, same⟩)
    obtain ⟨s, ran, done⟩ := ih (consistent.postponed member) left distinct.2
    refine ⟨s, ?_, done.consistent, done.held.trans (consistent.held_postponed member),
      done.known, ?_, ?_⟩
    · rw [forM_cons, bind_ok turn]
      exact ran
    · -- The node is known by its handle and by its slot.
      have first : (q.postponed n).current = q.current.filter fun m => m.item.slot != n.item.slot :=
        Keyed.filter_key_congr consistent.handles consistent.item_slots member
      rw [done.current, first, List.filter_filter]
      apply List.filter_congr
      intro m _
      rw [Bool.eq_iff_iff]
      simp [QueueNode.entry, and_comm]
    · rw [done.entries]
      change List.filter _ (q.currentByAddressAndNonce.filter _) = _
      rw [List.filter_filter]
      apply List.filter_congr
      intro e _
      rw [Bool.eq_iff_iff]
      simp [QueueNode.entry, and_comm]

/-- Making a transaction a future one takes those after it along. -/
theorem Consistent.setFuture_run (member : n ∈ q.current) :
    ∃ s, (setFuture n.item.hash).run q = .ok () s ∧ Postponed q (notBefore n.item.slot) s := by
  -- The loop goes over the entries of the sender from this nonce on.
  have led : q.currentByHash n.item.hash = some n.handle :=
    (consistent.byHash _ _).mpr ⟨n, member, rfl, rfl⟩
  have slots : (q.currentByAddressAndNonce.map QueueEntry.slot).Nodup := by
    rw [(consistent.byNonce.map QueueEntry.slot).nodup_iff, List.map_map]
    exact consistent.item_slots
  have members : ∀ e ∈ q.currentByAddressAndNonce.filter fun e => notBefore n.item.slot e.slot,
      e ∈ q.currentByAddressAndNonce := fun e kept => (List.mem_filter.mp kept).1
  obtain ⟨s, ran, done⟩ := consistent.forM_postponeEntry_run members
    (slots.sublist (List.filter_sublist.map _)) q.currentByAddressAndNonce
  have named : ∀ slot ∈ q.currentByAddressAndNonce.map QueueEntry.slot,
      decide (slot ∈ (q.currentByAddressAndNonce.filter fun e =>
        notBefore n.item.slot e.slot).map QueueEntry.slot) = notBefore n.item.slot slot := by
    intro slot present
    obtain ⟨e, entry, rfl⟩ := List.mem_map.mp present
    rw [Bool.eq_iff_iff, decide_eq_true_iff, List.mem_map]
    constructor
    · rintro ⟨e', kept, same⟩
      rw [← same]
      exact (List.mem_filter.mp kept).2
    · intro later
      exact ⟨e, List.mem_filter.mpr ⟨entry, later⟩, rfl⟩
  have entries : s.currentByAddressAndNonce =
      q.currentByAddressAndNonce.filter fun e => !notBefore n.item.slot e.slot := by
    rw [done.entries]
    apply List.filter_congr
    intro e present
    rw [named e.slot (List.mem_map_of_mem present)]
  refine ⟨s, ?_, done.consistent, done.held, done.known, ?_, entries⟩
  · rw [setFuture, run_get_bind, led]
    simp only [consistent.node_eq member]
    have loop : ((q.currentByAddressAndNonce.filter fun e =>
        notBefore n.item.slot e.slot).forM postponeEntry).run q =
        .ok () (s.withEntries q.currentByAddressAndNonce) := ran
    rw [bind_ok loop, run_modify]
    congr 1
    rw [withEntries, ← entries]
  · rw [done.current]
    apply List.filter_congr
    intro m present
    have entry : m.entry ∈ q.currentByAddressAndNonce :=
      consistent.byNonce.mem_iff.mpr (List.mem_map_of_mem present)
    rw [named m.item.slot (List.mem_map.mpr ⟨m.entry, entry, rfl⟩)]

end Postponing

section Stepping

variable {q : TransactionQueue} {host : QueueHost} {sha3 : Transaction → Hash}

/-- The hashes of all transactions that are held are known. -/
def Covered (q : TransactionQueue) : Prop := ∀ v ∈ q.held, v.hash ∈ q.known

/-- The queue with one more hash that was dropped. -/
def withDropped (q : TransactionQueue) (hash : Hash) : TransactionQueue :=
  { q with dropped := insert hash q.dropped }

/-- The queue after all is forgotten. -/
def cleared (q : TransactionQueue) : TransactionQueue :=
  { fresh q.limit q.futureLimit with dropped := q.dropped, nextHandle := q.nextHandle }

/-- The state after a call: what is left of the queue in each case. -/
inductive Stepped (host : QueueHost) (sha3 : Transaction → Hash) (q : TransactionQueue) :
    Call → TransactionQueue → Prop where
  | turnedAway (t : Transaction) (ik : IfDropped) : Stepped host sha3 q (.importTransaction t ik) q
  | imported {t : Transaction} {ik : IfDropped} {s : TransactionQueue}
    (unknown : sha3 t ∉ q.known) (imported : Imported host q ⟨sha3 t, t⟩ s) :
    Stepped host sha3 q (.importTransaction t ik) s
  | notCurrent (hash : Hash) : Stepped host sha3 q (.setFuture hash) q
  | postponed {n : QueueNode} {s : TransactionQueue} (member : n ∈ q.current)
    (postponed : Postponed q (notBefore n.item.slot) s) :
    Stepped host sha3 q (.setFuture n.item.hash) s
  | notKnown (hash : Hash) : Stepped host sha3 q (.drop hash) q
  | noted (hash : Hash) : Stepped host sha3 q (.drop hash) (q.withDropped hash)
  | dropped {n : QueueNode} (member : n ∈ q.current) :
    Stepped host sha3 q (.drop n.item.hash) ((q.withDropped n.item.hash).unlink n n.item.hash)
  | followed {t : Transaction} {p : TransactionQueue}
    (thinned : Thinned (q.advancedAll host (q.successors t)) p)
    (absent : ∀ n ∈ p.current, n.item.hash ≠ sha3 t) : Stepped host sha3 q (.dropGood t) p
  | mined {t : Transaction} {p : TransactionQueue} {n : QueueNode}
    (thinned : Thinned (q.advancedAll host (q.successors t)) p) (member : n ∈ p.current)
    (hash : n.item.hash = sha3 t) : Stepped host sha3 q (.dropGood t) (p.unlink n n.item.hash)
  | cleared : Stepped host sha3 q .clear q.cleared

/-- The calls whose transaction can be compared with others. -/
def Call.Recoverable : Call → Prop
  | .importTransaction t _ => t.sender.isOk = true
  | _ => True

theorem Consistent.byHash_cases (consistent : q.Consistent) (h : Hash) :
    (q.currentByHash h = none ∧ ∀ n ∈ q.current, n.item.hash ≠ h) ∨
      ∃ n ∈ q.current, n.item.hash = h := by
  cases led : q.currentByHash h with
  | none =>
    refine .inl ⟨rfl, fun n member same => ?_⟩
    rw [(consistent.byHash h n.handle).mpr ⟨n, member, rfl, same⟩] at led
    cases led
  | some handle =>
    obtain ⟨n, member, -, same⟩ := (consistent.byHash _ _).mp led
    exact .inr ⟨n, member, same⟩

theorem Thinned.known {p r : TransactionQueue} (thinned : Thinned r p) : p.known = r.known := by
  rw [thinned.frame]

theorem Thinned.items {p r : TransactionQueue} (thinned : Thinned r p) : p.items = r.items := by
  rw [thinned.frame]
  rfl

theorem Thinned.held_subset {p r : TransactionQueue} (thinned : Thinned r p) :
    p.held ⊆ r.held := by
  intro v member
  obtain current | future := List.mem_append.mp member
  · exact List.mem_append_left _ (thinned.items ▸ current)
  · exact future_mem_held (thinned.fewer future)

theorem Consistent.importTransaction_run (consistent : q.Consistent) (covered : q.Covered)
    {t : Transaction} (recoverable : t.sender.isOk = true) (host : QueueHost)
    (sha3 : Transaction → Hash) (ik : IfDropped) :
    ∃ result s, (importTransaction host sha3 t ik).run q = .ok result s ∧
      Stepped host sha3 q (.importTransaction t ik) s := by
  rw [importTransaction]
  by_cases zero : t.hasZeroSignature = true
  · rw [if_pos zero]
    exact ⟨_, q, rfl, .turnedAway t ik⟩
  · rw [if_neg zero, run_get_bind]
    by_cases known : sha3 t ∈ q.known
    · rw [if_pos known]
      exact ⟨_, q, rfl, .turnedAway t ik⟩
    · rw [if_neg known]
      by_cases dropped : sha3 t ∈ q.dropped ∧ ik = .ignore
      · rw [if_pos dropped]
        exact ⟨_, q, rfl, .turnedAway t ik⟩
      · rw [if_neg dropped]
        -- Only what is not known yet reaches the queue itself.
        have unknown : ∀ w ∈ q.held, w.hash ≠ sha3 t := fun w member same =>
          known (same ▸ covered w member)
        obtain ⟨result, ran⟩ | ⟨s, ran, imported⟩ :=
          consistent.manageImport_run (v := ⟨sha3 t, t⟩) host recoverable unknown
        · exact ⟨result, q, tryCatch_ok ran, .turnedAway t ik⟩
        · exact ⟨.success, s, tryCatch_ok ran, .imported known imported⟩

theorem Consistent.call_run (consistent : q.Consistent) (covered : q.Covered) (c : Call)
    (recoverable : c.Recoverable) (host : QueueHost) (sha3 : Transaction → Hash) :
    ∃ s, (call host sha3 c).run q = .ok () s ∧ Stepped host sha3 q c s := by
  -- Each call returns, and its result is one of the steps.
  cases c with
  | importTransaction t ik =>
    obtain ⟨result, s, ran, stepped⟩ :=
      consistent.importTransaction_run covered recoverable host sha3 ik
    refine ⟨s, ?_, stepped⟩
    change (importTransaction host sha3 t ik >>= fun _ => pure ()).run q = _
    rw [bind_ok ran]
    rfl
  | setFuture h =>
    obtain ⟨absent, -⟩ | ⟨n, member, rfl⟩ := consistent.byHash_cases h
    · refine ⟨q, ?_, .notCurrent h⟩
      change (setFuture h).run q = _
      rw [setFuture, run_get_bind, absent]
      rfl
    · obtain ⟨s, ran, postponed⟩ := consistent.setFuture_run member
      exact ⟨s, ran, .postponed member postponed⟩
  | drop h =>
    change ∃ s, (drop h).run q = .ok () s ∧ _
    rw [drop, run_get_bind]
    by_cases known : h ∈ q.known
    · rw [if_pos known]
      have noted : (set { q with dropped := insert h q.dropped } : QueueM PUnit).run q =
          .ok () (q.withDropped h) := rfl
      have settled : (q.withDropped h).Consistent := consistent.record _ _
      obtain ⟨absent, -⟩ | ⟨n, member, rfl⟩ := consistent.byHash_cases h
      · have absent' : (q.withDropped h).currentByHash h = none := absent
        refine ⟨q.withDropped h, ?_, .noted h⟩
        rw [bind_ok noted, bind_ok (remove_run_absent absent')]
        rfl
      · refine ⟨_, ?_, .dropped member⟩
        rw [bind_ok noted, bind_ok (settled.remove_run member)]
        rfl
    · rw [if_neg known]
      exact ⟨q, rfl, .notKnown h⟩
  | dropGood t =>
    change ∃ s, (dropGood host sha3 t).run q = .ok () s ∧ _
    obtain ⟨p, ran, thinned⟩ := consistent.makeCurrent_run host t
    obtain ⟨-, perm, known, -⟩ := consistent.advancedAll host t
    rw [dropGood, bind_ok ran, run_get_bind]
    obtain ⟨absent, nowhere⟩ | ⟨n, member, hash⟩ := thinned.consistent.byHash_cases (sha3 t)
    · refine ⟨p, ?_, .followed thinned nowhere⟩
      split
      · rw [bind_ok (remove_run_absent absent)]
        rfl
      · rfl
    · have present : sha3 t ∈ p.known := by
        rw [← hash, thinned.known, known]
        exact covered _ (perm.mem_iff.mp (thinned.held_subset (item_mem_held member)))
      refine ⟨p.unlink n n.item.hash, ?_, .mined thinned member hash⟩
      rw [if_pos present, ← hash, bind_ok (thinned.consistent.remove_run member)]
      rfl
  | clear => exact ⟨q.cleared, rfl, .cleared⟩

end Stepping

end TransactionQueue

end Etiam
