import Etiam.Library.Keyed
import Etiam.Queue.Transactions

/-! The transaction queue keeps its indices, its counter and its set of known hashes in step. -/

namespace Etiam

namespace QueueNode

/-- What the index by sender and nonce holds for a node. -/
def entry (n : QueueNode) : QueueEntry := ⟨n.item.slot, some n.handle⟩

end QueueNode

namespace TransactionQueue

open Exec

/-- All transactions that the queue holds. -/
def held (q : TransactionQueue) : List VerifiedTransaction := q.items ++ q.future

/-- Both indices lead to the nodes of the queue, and no two transactions get in each other's way. -/
structure Consistent (q : TransactionQueue) : Prop where
  handles : (q.current.map QueueNode.handle).Nodup
  older : ∀ n ∈ q.current, n.handle < q.nextHandle
  byHash : ∀ h handle, q.currentByHash h = some handle ↔
    ∃ n ∈ q.current, n.handle = handle ∧ n.item.hash = h
  byNonce : q.currentByAddressAndNonce.Perm (q.current.map QueueNode.entry)
  slots : (q.held.map VerifiedTransaction.slot).Nodup
  hashes : (q.held.map VerifiedTransaction.hash).Nodup
  size : q.futureSize = BitVec.ofNat 32 q.future.length
  sent : ∀ v ∈ q.held, v.sent = true

/-- A new queue is consistent. -/
theorem consistent_fresh (limit futureLimit : BitVec 32) :
    (fresh limit futureLimit).Consistent where
  handles := List.nodup_nil
  older := by simp [fresh]
  byHash := by simp [fresh]
  byNonce := List.Perm.nil
  slots := List.nodup_nil
  hashes := List.nodup_nil
  size := rfl
  sent := by simp [fresh, held, items]

/-- The sets of known and dropped hashes have no part in it. -/
theorem Consistent.record {q : TransactionQueue} (consistent : q.Consistent)
    (known dropped : Finset Hash) : Consistent { q with known, dropped } := by
  obtain ⟨handles, older, byHash, byNonce, slots, hashes, size, sent⟩ := consistent
  exact ⟨handles, older, byHash, byNonce, slots, hashes, size, sent⟩

section Lookup

variable {q : TransactionQueue}

/-- The current transactions are those of the nodes. -/
theorem mem_items {v : VerifiedTransaction} : v ∈ q.items ↔ ∃ n ∈ q.current, n.item = v :=
  List.mem_map

/-- The transaction of a node is held. -/
theorem item_mem_held {n : QueueNode} (member : n ∈ q.current) : n.item ∈ q.held :=
  List.mem_append_left _ (mem_items.mpr ⟨n, member, rfl⟩)

/-- A future transaction is held. -/
theorem future_mem_held {v : VerifiedTransaction} (member : v ∈ q.future) : v ∈ q.held :=
  List.mem_append_right _ member

variable (consistent : q.Consistent)

include consistent

/-- A handle leads to its node. -/
theorem Consistent.node_eq {n : QueueNode} (member : n ∈ q.current) : q.node n.handle = some n :=
  Keyed.find?_eq_some consistent.handles member

/-- Held transactions with one hash are the same. -/
theorem Consistent.hash_inj {v w : VerifiedTransaction} (left : v ∈ q.held) (right : w ∈ q.held)
    (same : v.hash = w.hash) : v = w :=
  List.inj_on_of_nodup_map consistent.hashes left right same

/-- A current and a future transaction have different slots. -/
theorem Consistent.apart {v w : VerifiedTransaction} (current : v ∈ q.items)
    (future : w ∈ q.future) : v.slot ≠ w.slot := by
  have slots := consistent.slots
  rw [held, List.map_append, List.nodup_append] at slots
  exact slots.2.2 _ (List.mem_map_of_mem current) _ (List.mem_map_of_mem future)

/-- A slot that no current transaction has is vacant. -/
theorem Consistent.entry_eq_none {slot : Address × U256} (vacant : ∀ v ∈ q.items, v.slot ≠ slot) :
    q.entry slot = none := by
  rw [entry, Keyed.find?_eq_none]
  intro e member
  obtain ⟨n, present, rfl⟩ := List.mem_map.mp (consistent.byNonce.mem_iff.mp member)
  exact vacant n.item (mem_items.mpr ⟨n, present, rfl⟩)

/-- The entry of a slot leads to the node with the slot. -/
theorem Consistent.entry_eq_some {slot : Address × U256} {e : QueueEntry}
    (found : q.entry slot = some e) :
    ∃ n ∈ q.current, n.item.slot = slot ∧ e.handle.bind q.node = some n := by
  obtain ⟨member, named⟩ := Keyed.mem_of_find? found
  obtain ⟨n, present, rfl⟩ := List.mem_map.mp (consistent.byNonce.mem_iff.mp member)
  exact ⟨n, present, named, consistent.node_eq present⟩

end Lookup

section Entering

variable {q : TransactionQueue} {v : VerifiedTransaction}

/-- The queue with a new current transaction at a place. -/
def entered (q : TransactionQueue) (k : ℕ) (v : VerifiedTransaction) : TransactionQueue :=
  { q with
    current := q.current.take k ++ ⟨q.nextHandle, v⟩ :: q.current.drop k
    nextHandle := q.nextHandle + 1
    currentByAddressAndNonce := q.currentByAddressAndNonce ++ [⟨v.slot, some q.nextHandle⟩]
    currentByHash := Function.update q.currentByHash v.hash (some q.nextHandle) }

/-- The place that the host finds for a new transaction. -/
def place (host : QueueHost) (q : TransactionQueue) (v : VerifiedTransaction) : ℕ :=
  host.seek (q.reserve v.slot).priorityCompare q.items v

/-- Entering adds one node. -/
theorem current_entered_perm (q : TransactionQueue) (k : ℕ) (v : VerifiedTransaction) :
    (q.entered k v).current.Perm (⟨q.nextHandle, v⟩ :: q.current) := by
  have moved : (q.current.take k ++ ⟨q.nextHandle, v⟩ :: q.current.drop k).Perm
      (⟨q.nextHandle, v⟩ :: (q.current.take k ++ q.current.drop k)) := List.perm_middle
  rwa [List.take_append_drop] at moved

/-- Entering adds one transaction. -/
theorem held_entered_perm (q : TransactionQueue) (k : ℕ) (v : VerifiedTransaction) :
    (q.entered k v).held.Perm (v :: q.held) :=
  ((current_entered_perm q k v).map QueueNode.item).append_right q.future

/-- Entering a vacant slot succeeds if every sender is known. -/
theorem enter_run (host : QueueHost) (vacant : q.entry v.slot = none) (sent : v.sent = true)
    (others : ∀ x ∈ q.items, x.sent = true) :
    (enter host v).run q = .ok () (q.entered (place host q v) v) := by
  -- The slot is reserved, the comparisons find every sender, and the entry is pointed at the node.
  have reserved : q.reserve v.slot =
      { q with currentByAddressAndNonce := q.currentByAddressAndNonce ++ [⟨v.slot, none⟩] } := by
    rw [reserve, vacant]
    rfl
  have quiet : ¬ (((q.reserve v.slot).items ≠ [] ∧ v.sent = false) ∨
      ∃ x ∈ (q.reserve v.slot).items,
        host.meets (q.reserve v.slot).items v x = true ∧ x.sent = false) := by
    have same : (q.reserve v.slot).items = q.items := by rw [reserved]; rfl
    rw [same]
    rintro (⟨-, lost⟩ | ⟨x, member, -, lost⟩)
    · rw [sent] at lost
      cases lost
    · rw [others x member] at lost
      cases lost
  have placed : (emplace host v).run (q.reserve v.slot) = .ok q.nextHandle
      ((q.reserve v.slot).insertNode (place host q v) v) := by
    rw [emplace, run_get_bind, if_neg quiet]
    rw [reserved]
    simp only [place, reserved]
    rfl
  rw [enter, run_modify_bind, bind_ok placed, run_modify, reserved]
  -- No entry but the new one is for the slot.
  have kept : q.currentByAddressAndNonce.map (fun e =>
      if e.slot == v.slot then { e with handle := some q.nextHandle } else e) =
      q.currentByAddressAndNonce := by
    conv_rhs => rw [← List.map_id q.currentByAddressAndNonce]
    apply List.map_congr_left
    intro e member
    have other : e.slot ≠ v.slot := Keyed.find?_eq_none.mp vacant e member
    rw [if_neg (by simpa using other)]
    rfl
  simp only [point, insertNode, entered, List.map_append, kept, List.map_cons, List.map_nil,
    beq_self_eq_true, if_true]

/-- A transaction with a slot and a hash of its own may enter. -/
theorem Consistent.entered (consistent : q.Consistent) (k : ℕ)
    (slot : ∀ w ∈ q.held, w.slot ≠ v.slot) (hash : ∀ w ∈ q.held, w.hash ≠ v.hash)
    (sent : v.sent = true) : (q.entered k v).Consistent where
  handles := Keyed.nodup_of_perm_cons (current_entered_perm q k v)
    (fun n present => Nat.ne_of_lt (consistent.older n present)) consistent.handles
  older := by
    intro n member
    obtain rfl | present := List.mem_cons.mp ((current_entered_perm q k v).mem_iff.mp member)
    · exact Nat.lt_succ_self q.nextHandle
    · exact Nat.lt_succ_of_lt (consistent.older n present)
  byHash := by
    intro h handle
    simp only [(current_entered_perm q k v).mem_iff, List.mem_cons, exists_eq_or_imp]
    change Function.update q.currentByHash v.hash (some q.nextHandle) h = some handle ↔ _
    by_cases same : h = v.hash
    · subst same
      rw [Function.update_self, Option.some_inj]
      constructor
      · intro here
        exact .inl ⟨here, rfl⟩
      · rintro (⟨here, -⟩ | ⟨n, present, -, clash⟩)
        · exact here
        · exact absurd clash (hash n.item (item_mem_held present))
    · rw [Function.update_of_ne same, consistent.byHash]
      constructor
      · intro there
        exact .inr there
      · rintro (⟨-, clash⟩ | there)
        · exact absurd clash.symm same
        · exact there
  byNonce := by
    have longer : (q.entered k v).currentByAddressAndNonce.Perm
        (QueueNode.entry ⟨q.nextHandle, v⟩ :: q.current.map QueueNode.entry) :=
      List.perm_append_comm.trans (consistent.byNonce.cons _)
    exact longer.trans ((current_entered_perm q k v).map QueueNode.entry).symm
  slots := Keyed.nodup_of_perm_cons (held_entered_perm q k v) slot consistent.slots
  hashes := Keyed.nodup_of_perm_cons (held_entered_perm q k v) hash consistent.hashes
  size := consistent.size
  sent := by
    intro w member
    obtain rfl | present := List.mem_cons.mp ((held_entered_perm q k v).mem_iff.mp member)
    · exact sent
    · exact consistent.sent w present

end Entering

section Leaving

variable {q : TransactionQueue} {v : VerifiedTransaction} {n : QueueNode}

section

variable (consistent : q.Consistent)

include consistent

/-- Future transactions have different slots. -/
theorem Consistent.future_slots : (q.future.map VerifiedTransaction.slot).Nodup := by
  have slots := consistent.slots
  rw [held, List.map_append] at slots
  exact slots.of_append_right

/-- Current transactions have different slots. -/
theorem Consistent.item_slots : (q.current.map fun n => n.item.slot).Nodup := by
  have slots := consistent.slots
  rw [held, List.map_append, items, List.map_map] at slots
  exact slots.of_append_left

/-- Forgetting takes out one future transaction. -/
theorem Consistent.future_perm (member : v ∈ q.future) :
    q.future.Perm (v :: (q.forgot v).future) := by
  have taken := Keyed.perm_cons_filter consistent.future_slots member
  have same : (q.forgot v).future = q.future.filter fun x => x.slot != v.slot := by
    apply List.filter_congr
    intro x present
    rw [Bool.eq_iff_iff]
    simp
  rwa [same]

/-- Forgetting takes out one held transaction. -/
theorem Consistent.held_forgot (member : v ∈ q.future) : q.held.Perm (v :: (q.forgot v).held) :=
  ((consistent.future_perm member).append_left q.items).trans List.perm_middle

/-- A future transaction may be forgotten. -/
theorem Consistent.forgot (member : v ∈ q.future) :
    (q.forgot v).Consistent where
  handles := consistent.handles
  older := consistent.older
  byHash := consistent.byHash
  byNonce := consistent.byNonce
  slots := (Keyed.nodup_rest (consistent.held_forgot member) consistent.slots).2
  hashes := (Keyed.nodup_rest (consistent.held_forgot member) consistent.hashes).2
  size := by
    have shorter := (consistent.future_perm member).length_eq
    rw [List.length_cons] at shorter
    change q.futureSize - 1 = _
    rw [consistent.size, shorter, BitVec.ofNat_add]
    exact BitVec.add_sub_cancel _ _
  sent := fun w present =>
    consistent.sent w ((consistent.held_forgot member).mem_iff.mpr (List.mem_cons_of_mem v present))

variable (member : n ∈ q.current)

include member

/-- Unlinking takes out one node. -/
theorem Consistent.current_perm : q.current.Perm (n :: (q.unlink n n.item.hash).current) :=
  Keyed.perm_cons_filter consistent.handles member

/-- Unlinking takes out one held transaction. -/
theorem Consistent.held_unlink : q.held.Perm (n.item :: (q.unlink n n.item.hash).held) :=
  ((consistent.current_perm member).map QueueNode.item).append_right q.future

/-- Without its hash, the index leads to the other nodes. -/
theorem Consistent.byHash_erase (h : Hash) (handle : ℕ) :
    Function.update q.currentByHash n.item.hash none h = some handle ↔
      ∃ m ∈ q.current.filter (fun m => m.handle != n.handle), m.handle = handle ∧
        m.item.hash = h := by
  -- No other node has the hash, and the node with another hash has another handle.
  by_cases same : h = n.item.hash
  · subst same
    rw [Function.update_self]
    constructor
    · intro found
      cases found
    · rintro ⟨m, kept, -, clash⟩
      obtain ⟨present, other⟩ := List.mem_filter.mp kept
      have items := consistent.hash_inj (item_mem_held present) (item_mem_held member) clash
      have nodes : m = n := List.inj_on_of_nodup_map consistent.item_slots present member
        (congrArg VerifiedTransaction.slot items)
      simp [nodes] at other
  · rw [Function.update_of_ne same, consistent.byHash]
    constructor
    · rintro ⟨m, present, named, hashed⟩
      refine ⟨m, List.mem_filter.mpr ⟨present, ?_⟩, named, hashed⟩
      simp only [bne_iff_ne]
      intro clash
      have nodes : m = n := List.inj_on_of_nodup_map consistent.handles present member clash
      exact same (by rw [← hashed, nodes])
    · rintro ⟨m, kept, named, hashed⟩
      exact ⟨m, (List.mem_filter.mp kept).1, named, hashed⟩

/-- Without its slot, the index leads to the other nodes. -/
theorem Consistent.byNonce_erase :
    (q.currentByAddressAndNonce.filter fun e => e.slot != n.item.slot).Perm
      ((q.current.filter fun m => m.handle != n.handle).map QueueNode.entry) := by
  have kept := consistent.byNonce.filter fun e => e.slot != n.item.slot
  rw [List.filter_map] at kept
  have same : (q.current.filter fun m => m.handle != n.handle) =
      q.current.filter fun m => m.item.slot != n.item.slot :=
    Keyed.filter_key_congr consistent.handles consistent.item_slots member
  rw [same]
  exact kept

/-- A node may be unlinked. -/
theorem Consistent.unlink :
    (q.unlink n n.item.hash).Consistent where
  handles := consistent.handles.sublist (List.filter_sublist.map _)
  older := fun m kept => consistent.older m (List.mem_filter.mp kept).1
  byHash := consistent.byHash_erase member
  byNonce := consistent.byNonce_erase member
  slots := (Keyed.nodup_rest (consistent.held_unlink member) consistent.slots).2
  hashes := (Keyed.nodup_rest (consistent.held_unlink member) consistent.hashes).2
  size := consistent.size
  sent := fun w present => consistent.sent w
    ((consistent.held_unlink member).mem_iff.mpr (List.mem_cons_of_mem n.item present))

/-- Removing a current transaction by its hash unlinks its node. -/
theorem Consistent.remove_run : (remove n.item.hash).run q = .ok true (q.unlink n n.item.hash) := by
  have led : q.currentByHash n.item.hash = some n.handle :=
    (consistent.byHash _ _).mpr ⟨n, member, rfl, rfl⟩
  have indexed : ¬ (q.currentByAddressAndNonce.find? fun e =>
      e.slot.1 == n.item.slot.1).isNone = true := by
    rw [Option.isNone_iff_eq_none, List.find?_eq_none]
    intro nowhere
    have entry : n.entry ∈ q.currentByAddressAndNonce :=
      consistent.byNonce.mem_iff.mpr (List.mem_map_of_mem member)
    exact nowhere n.entry entry (beq_self_eq_true n.item.slot.1)
  rw [remove, run_get_bind, led]
  simp only [consistent.node_eq member]
  rw [if_neg indexed]
  rfl

end

/-- Removing an unknown hash does nothing. -/
theorem remove_run_absent {h : Hash} (absent : q.currentByHash h = none) :
    (remove h).run q = .ok false q := by
  rw [remove, run_get_bind, absent]
  rfl

end Leaving

/-- A number that does not wrap around grows by one. -/
theorem toNat_add_one {width : ℕ} {n : BitVec width} (wide : n + 1 ≠ 0) :
    (n + 1).toNat = n.toNat + 1 := by
  have sum : (n + 1).toNat = (n.toNat + 1) % 2 ^ width := by
    rw [BitVec.toNat_add, BitVec.ofNat_eq_ofNat, BitVec.toNat_ofNat, Nat.add_mod_mod]
  obtain full | small := Nat.eq_or_lt_of_le (Nat.succ_le_of_lt n.isLt)
  · refine absurd (BitVec.eq_of_toNat_eq ?_) wide
    rw [sum, ← Nat.succ_eq_add_one, full, Nat.mod_self, BitVec.ofNat_eq_ofNat, BitVec.toNat_ofNat,
      Nat.zero_mod]
  · rw [sum]
    exact Nat.mod_eq_of_lt small

section Following

variable {future : List VerifiedTransaction} {a : Address}

/-- What follows are future transactions of the account, from the nonce on. -/
theorem following_mem {fuel : ℕ} {nonce : U256} {v : VerifiedTransaction}
    (member : v ∈ following future a fuel nonce) :
    v ∈ future ∧ v.slot.1 = a ∧ nonce.toNat ≤ v.slot.2.toNat := by
  induction fuel generalizing nonce with
  | zero => simp [following] at member
  | succ fuel ih =>
    rw [following] at member
    split at member
    · simp at member
    · next w found =>
      obtain ⟨present, named⟩ := Keyed.mem_of_find? found
      obtain rfl | later := List.mem_cons.mp member
      · rw [named]
        exact ⟨present, rfl, Nat.le_refl _⟩
      · split at later
        · simp at later
        · next wide =>
          obtain ⟨further, owner, above⟩ := ih later
          have next := toNat_add_one wide
          exact ⟨further, owner, by omega⟩

/-- No slot follows twice. -/
theorem following_nodup (fuel : ℕ) (nonce : U256) :
    ((following future a fuel nonce).map VerifiedTransaction.slot).Nodup := by
  -- What follows a transaction has later nonces.
  induction fuel generalizing nonce with
  | zero => exact List.nodup_nil
  | succ fuel ih =>
    rw [following]
    split
    · exact List.nodup_nil
    · next w found =>
      obtain ⟨-, named⟩ := Keyed.mem_of_find? found
      rw [List.map_cons, List.nodup_cons]
      split
      · simp
      · next wide =>
        refine ⟨?_, ih (nonce + 1)⟩
        intro again
        obtain ⟨v, member, same⟩ := List.mem_map.mp again
        obtain ⟨-, -, above⟩ := following_mem member
        have next := toNat_add_one wide
        rw [same, named] at above
        simp only at above
        omega

end Following

section Advancing

variable {q : TransactionQueue} {v : VerifiedTransaction} (host : QueueHost)

/-- The queue with one of its future transactions made current. -/
def advanced (q : TransactionQueue) (v : VerifiedTransaction) : TransactionQueue :=
  (q.forgot v).entered (place host q v) v

/-- A future transaction may be made current. -/
theorem Consistent.advanced (consistent : q.Consistent) (member : v ∈ q.future) :
    (q.advanced host v).Consistent := by
  have taken := consistent.held_forgot member
  apply (consistent.forgot member).entered
  · exact (Keyed.nodup_rest taken consistent.slots).1
  · exact (Keyed.nodup_rest taken consistent.hashes).1
  · exact consistent.sent v (future_mem_held member)

/-- The same transactions are held then. -/
theorem Consistent.held_advanced (consistent : q.Consistent) (member : v ∈ q.future) :
    (q.advanced host v).held.Perm q.held :=
  (held_entered_perm _ _ v).trans (consistent.held_forgot member).symm

/-- Those of other slots are still future ones. -/
theorem mem_future_advanced {w : VerifiedTransaction} (member : w ∈ q.future)
    (other : w.slot ≠ v.slot) : w ∈ (q.advanced host v).future := by
  refine List.mem_filter.mpr ⟨member, ?_⟩
  simpa using other

/-- There is one future transaction less. -/
theorem Consistent.length_advanced (consistent : q.Consistent) (member : v ∈ q.future) :
    (q.advanced host v).future.length + 1 = q.future.length :=
  (consistent.future_perm member).length_eq.symm

/-- The queue with other places taken among its future transactions. -/
def withFuture (q : TransactionQueue) (places : List VerifiedTransaction) : TransactionQueue :=
  { q with future := places }

/-- One turn of the loop, in which the places among the future transactions are not given up. -/
theorem Consistent.advance_run (consistent : q.Consistent) (member : v ∈ q.future)
    (places : List VerifiedTransaction) :
    (advance host v).run (q.withFuture places) =
      .ok () ((q.advanced host v).withFuture places) := by
  -- The places among the future transactions have no part in entering one.
  have vacant : q.entry v.slot = none :=
    consistent.entry_eq_none fun w current => consistent.apart current member
  have others : ∀ x ∈ q.items, x.sent = true := fun x present =>
    consistent.sent x (List.mem_append_left _ present)
  have entering : (enter host v).run (q.withFuture places) =
      .ok () ((q.withFuture places).entered (place host (q.withFuture places) v) v) :=
    enter_run host vacant (consistent.sent v (future_mem_held member)) others
  rw [advance, bind_ok entering]
  have reserved : (q.withFuture places).reserve v.slot = (q.reserve v.slot).withFuture places := by
    have vacant' : (q.withFuture places).entry v.slot = none := vacant
    rw [reserve, reserve, vacant, vacant']
    rfl
  have placed : place host (q.withFuture places) v = place host q v := by
    rw [place, reserved]
    rfl
  rw [placed]
  rfl

/-- The queue with several of its future transactions made current. -/
def advancedAll (q : TransactionQueue) (next : List VerifiedTransaction) : TransactionQueue :=
  next.foldl (advanced host) q

/-- When the first of a list has advanced, the rest is still to come. -/
theorem mem_future_rest {v : VerifiedTransaction} {rest : List VerifiedTransaction}
    (members : ∀ w ∈ v :: rest, w ∈ q.future)
    (distinct : v.slot ∉ rest.map VerifiedTransaction.slot) :
    ∀ w ∈ rest, w ∈ (q.advanced host v).future := by
  intro w later
  apply mem_future_advanced host (members w (List.mem_cons_of_mem v later))
  intro same
  exact distinct (same ▸ List.mem_map_of_mem later)

/-- What holds of a queue and is kept as each of some future transactions advances. -/
theorem Consistent.advancedAll_induction {motive : TransactionQueue → Prop}
    {next : List VerifiedTransaction} (consistent : q.Consistent)
    (members : ∀ v ∈ next, v ∈ q.future)
    (distinct : (next.map VerifiedTransaction.slot).Nodup) (start : motive q)
    (step : ∀ p v, p.Consistent → v ∈ next → v ∈ p.future → motive p →
      motive (p.advanced host v)) :
    (q.advancedAll host next).Consistent ∧ motive (q.advancedAll host next) := by
  induction next generalizing q with
  | nil => exact ⟨consistent, start⟩
  | cons v rest ih =>
    rw [List.map_cons, List.nodup_cons] at distinct
    have here := members v List.mem_cons_self
    apply ih (consistent.advanced host here)
    · exact mem_future_rest host members distinct.1
    · exact distinct.2
    · exact step q v consistent List.mem_cons_self here start
    · intro p w p_consistent later
      exact step p w p_consistent (List.mem_cons_of_mem v later)

/-- The future transactions left are those of other slots. -/
theorem future_advancedAll (q : TransactionQueue) (next : List VerifiedTransaction) :
    (q.advancedAll host next).future =
      (q.withoutFuture (next.map VerifiedTransaction.slot)).future := by
  induction next generalizing q with
  | nil => simp [advancedAll, withoutFuture]
  | cons v rest ih =>
    change ((q.advanced host v).advancedAll host rest).future = _
    rw [ih]
    change List.filter _ (q.future.filter _) = _
    rw [List.filter_filter]
    apply List.filter_congr
    intro x _
    rw [Bool.eq_iff_iff]
    simp [and_comm]

/-- The loop makes them all current, with their places still taken. -/
theorem Consistent.forM_advance_run {next : List VerifiedTransaction} (consistent : q.Consistent)
    (members : ∀ v ∈ next, v ∈ q.future)
    (distinct : (next.map VerifiedTransaction.slot).Nodup) (places : List VerifiedTransaction) :
    (next.forM (advance host)).run (q.withFuture places) =
      .ok () ((q.advancedAll host next).withFuture places) := by
  induction next generalizing q with
  | nil => rfl
  | cons v rest ih =>
    rw [List.map_cons, List.nodup_cons] at distinct
    have here := members v List.mem_cons_self
    rw [forM_cons, bind_ok (consistent.advance_run host here places)]
    apply ih (consistent.advanced host here)
    · exact mem_future_rest host members distinct.1
    · exact distinct.2

end Advancing

section Trimming

variable {q : TransactionQueue}

/-- The last future transaction of an account is one. -/
theorem lastFuture_mem {future : List VerifiedTransaction} {a : Address} {v : VerifiedTransaction}
    (found : lastFuture future a = some v) : v ∈ future :=
  (List.mem_filter.mp (List.argmax_mem found)).1

/-- Where there are future transactions, the first account has a last one. -/
theorem exists_lastFuture (host : QueueHost) {future : List VerifiedTransaction}
    (some_left : future ≠ []) :
    ∃ v, lastFuture future (host.first future) = some v := by
  obtain ⟨w, member, owner⟩ := host.first_mem future some_left
  cases found : lastFuture future (host.first future) with
  | some v => exact ⟨v, rfl⟩
  | none =>
    have empty := List.argmax_eq_none.mp found
    have kept : w ∈ future.filter fun v => v.transaction.safeSender == host.first future :=
      List.mem_filter.mpr ⟨member, by simpa using owner⟩
    rw [empty] at kept
    cases kept

/-- A queue that differs from another in having dropped future transactions past the limit. -/
structure Thinned (q p : TransactionQueue) : Prop where
  consistent : p.Consistent
  frame : p = { q with future := p.future, futureSize := p.futureSize }
  fewer : p.future ⊆ q.future
  idle : q.futureSize ≤ q.futureLimit → p = q

/-- A consistent queue may stay as it is. -/
theorem Consistent.thinned (consistent : q.Consistent) : Thinned q q :=
  ⟨consistent, rfl, List.Subset.refl _, fun _ => rfl⟩

/-- Trimming returns, and has dropped future transactions only past the limit. -/
theorem Consistent.trimFuture_run (consistent : q.Consistent) (host : QueueHost) (fuel : ℕ) :
    ∃ p, (trimFuture host fuel).run q = .ok () p ∧ Thinned q p := by
  induction fuel generalizing q with
  | zero => exact ⟨q, rfl, consistent.thinned⟩
  | succ fuel ih =>
    rw [trimFuture, run_get_bind]
    by_cases small : q.futureSize ≤ q.futureLimit
    · rw [if_pos small]
      exact ⟨q, rfl, consistent.thinned⟩
    · -- Past the limit there is a transaction to drop, since the counter is the length.
      rw [if_neg small]
      have some_left : q.future ≠ [] := by
        intro none_left
        apply small
        rw [consistent.size, none_left]
        exact BitVec.le_def.mpr (Nat.zero_le _)
      obtain ⟨v, found⟩ := exists_lastFuture host some_left
      obtain ⟨p, ran, thinned⟩ := ih (consistent.forgot (lastFuture_mem found))
      rw [found]
      refine ⟨p, ran, thinned.consistent, thinned.frame, ?_, fun fits => absurd fits small⟩
      intro w member
      exact (List.mem_filter.mp (thinned.fewer member)).1

/-- Successors are future transactions of the sender with later nonces. -/
theorem successors_mem {t : Transaction} {v : VerifiedTransaction} (member : v ∈ q.successors t) :
    v ∈ q.future ∧ v.slot.1 = t.safeSender ∧ (t.nonce + 1).toNat ≤ v.slot.2.toNat :=
  following_mem member

/-- The successors become current, and the future transactions are trimmed. -/
theorem Consistent.makeCurrent_run (consistent : q.Consistent) (host : QueueHost)
    (t : Transaction) :
    ∃ p, (makeCurrent host t).run q = .ok () p ∧
      Thinned (q.advancedAll host (q.successors t)) p := by
  -- The loop runs with all places taken; they are given up after it, and the queue is trimmed.
  have members : ∀ v ∈ q.successors t, v ∈ q.future := fun v member => (successors_mem member).1
  have distinct : ((q.successors t).map VerifiedTransaction.slot).Nodup := following_nodup _ _
  have moved : ((q.successors t).forM (advance host)).run q =
      .ok () ((q.advancedAll host (q.successors t)).withFuture q.future) :=
    consistent.forM_advance_run host members distinct q.future
  obtain ⟨settled, -⟩ := consistent.advancedAll_induction host (motive := fun _ => True)
    members distinct trivial fun _ _ _ _ _ _ => trivial
  obtain ⟨p, ran, thinned⟩ := settled.trimFuture_run host
    (q.advancedAll host (q.successors t)).futureSize.toNat
  refine ⟨p, ?_, thinned⟩
  have given : ((q.advancedAll host (q.successors t)).withFuture q.future).withoutFuture
      ((q.successors t).map VerifiedTransaction.slot) = q.advancedAll host (q.successors t) := by
    have left := future_advancedAll host q (q.successors t)
    simp only [withoutFuture, withFuture] at left ⊢
    rw [← left]
  rw [makeCurrent, run_get_bind]
  simp only
  rw [bind_ok moved, run_modify_bind, run_get_bind, given]
  exact ran

/-- A queue that comes from another by removing current transactions from its end. -/
inductive Shortened : TransactionQueue → TransactionQueue → Prop where
  | refl (q : TransactionQueue) : Shortened q q
  | last {q p : TransactionQueue} {n : QueueNode} (final : q.current.getLast? = some n)
    (rest : Shortened (q.unlink n n.item.hash) p) : Shortened q p

/-- Trimming returns, and has removed nodes from the end. -/
theorem Consistent.trimCurrent_run (consistent : q.Consistent) (fuel : ℕ) :
    ∃ p, (trimCurrent fuel).run q = .ok () p ∧ Shortened q p := by
  induction fuel generalizing q with
  | zero => exact ⟨q, rfl, .refl q⟩
  | succ fuel ih =>
    rw [trimCurrent, run_get_bind]
    by_cases small : q.current.length ≤ q.limit.toNat
    · rw [if_pos small]
      exact ⟨q, rfl, .refl q⟩
    · rw [if_neg small]
      cases final : q.current.getLast? with
      | none =>
        rw [List.getLast?_eq_none_iff.mp final] at small
        exact absurd (Nat.zero_le _) small
      | some n =>
        have member := List.mem_of_getLast? final
        obtain ⟨p, ran, rest⟩ := ih (consistent.unlink member)
        refine ⟨p, ?_, .last final rest⟩
        simp only
        rw [bind_ok (consistent.remove_run member)]
        exact ran

/-- A shortened queue is consistent. -/
theorem Shortened.consistent {p : TransactionQueue} (shortened : Shortened q p)
    (consistent : q.Consistent) : p.Consistent := by
  induction shortened with
  | refl => exact consistent
  | last final _ ih => exact ih (consistent.unlink (List.mem_of_getLast? final))

end Trimming

end TransactionQueue

end Etiam
