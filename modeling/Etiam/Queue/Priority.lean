import Etiam.Library.ListOrder
import Etiam.Queue.Known

/-! The order of the transaction queue, which holds as long as no sender's smallest nonce moves. -/

namespace Etiam

namespace TransactionQueue

open Exec

variable {q p : TransactionQueue} {v x y : VerifiedTransaction}

section Heights

theorem firstNonce_congr (same : q.currentByAddressAndNonce.map QueueEntry.slot =
    p.currentByAddressAndNonce.map QueueEntry.slot) (a : Address) :
    q.firstNonce a = p.firstNonce a := by
  have shape : ∀ r : TransactionQueue, r.firstNonce a =
      ((((r.currentByAddressAndNonce.map QueueEntry.slot).filter fun s => s.1 == a).map
        fun s => s.2.toNat).min?).getD 0 := by
    intro r
    rw [List.filter_map, List.map_map]
    rfl
  rw [shape, shape, same]

theorem Consistent.firstNonce_eq (consistent : q.Consistent) (member : y ∈ q.items)
    (least : ∀ x ∈ q.items, x.slot.1 = y.slot.1 → y.slot.2 ≤ x.slot.2) :
    q.firstNonce y.slot.1 = y.slot.2.toNat := by
  have found : ((q.currentByAddressAndNonce.filter fun e => e.slot.1 == y.slot.1).map
      fun e => e.slot.2.toNat).min? = some y.slot.2.toNat := by
    rw [List.min?_eq_some_iff]
    constructor
    · obtain ⟨n, present, rfl⟩ := mem_items.mp member
      have entry : n.entry ∈ q.currentByAddressAndNonce :=
        consistent.byNonce.mem_iff.mpr (List.mem_map_of_mem present)
      exact List.mem_map.mpr ⟨n.entry, List.mem_filter.mpr ⟨entry, beq_self_eq_true _⟩, rfl⟩
    · intro nonce listed
      obtain ⟨e, kept, rfl⟩ := List.mem_map.mp listed
      obtain ⟨entry, owner⟩ := List.mem_filter.mp kept
      obtain ⟨n, present, rfl⟩ := List.mem_map.mp (consistent.byNonce.mem_iff.mp entry)
      exact BitVec.le_def.mp
        (least n.item (mem_items.mpr ⟨n, present, rfl⟩) (beq_iff_eq.mp owner))
  rw [firstNonce, found]
  rfl

theorem exists_first (member : x ∈ q.items) :
    ∃ y ∈ q.items, y.slot.1 = x.slot.1 ∧
      ∀ z ∈ q.items, z.slot.1 = x.slot.1 → y.slot.2 ≤ z.slot.2 := by
  have own : x ∈ q.items.filter fun z => z.slot.1 == x.slot.1 :=
    List.mem_filter.mpr ⟨member, beq_self_eq_true _⟩
  cases found : (q.items.filter fun z => z.slot.1 == x.slot.1).argmin fun z => z.slot.2.toNat with
  | none =>
    rw [List.argmin_eq_none.mp found] at own
    cases own
  | some y =>
    obtain ⟨present, owner⟩ := List.mem_filter.mp (List.argmin_mem found)
    refine ⟨y, present, beq_iff_eq.mp owner, ?_⟩
    intro z other same
    have listed : z ∈ q.items.filter fun z => z.slot.1 == x.slot.1 :=
      List.mem_filter.mpr ⟨other, by simpa using same⟩
    have lowest := List.le_of_mem_argmin listed found
    exact BitVec.le_def.mpr lowest

theorem Consistent.height_eq (consistent : q.Consistent) (member : x ∈ q.items) :
    ∃ y ∈ q.items, y.slot.1 = x.slot.1 ∧
      (∀ z ∈ q.items, z.slot.1 = x.slot.1 → y.slot.2 ≤ z.slot.2) ∧
      q.height x = x.slot.2 - y.slot.2 := by
  obtain ⟨y, present, owner, least⟩ := exists_first member
  refine ⟨y, present, owner, least, ?_⟩
  have first := consistent.firstNonce_eq present fun z other same =>
    least z other (same.trans owner)
  rw [height]
  change x.slot.2 - BitVec.ofNat 256 (q.firstNonce x.slot.1) = _
  rw [← owner, first, BitVec.ofNat_toNat, BitVec.setWidth_eq]

theorem Consistent.height_le_iff (consistent : q.Consistent) (left : x ∈ q.items)
    (right : y ∈ q.items) (owner : x.slot.1 = y.slot.1) :
    q.height x ≤ q.height y ↔ x.slot.2 ≤ y.slot.2 := by
  obtain ⟨z, present, named, least, above⟩ := consistent.height_eq left
  have lower : z.slot.2 ≤ y.slot.2 := least y right owner.symm
  have own : z.slot.2 ≤ x.slot.2 := least x left rfl
  have other : q.height y = y.slot.2 - z.slot.2 := by
    obtain ⟨w, present', named', least', above'⟩ := consistent.height_eq right
    have same : w.slot.2 = z.slot.2 := BitVec.le_antisymm
      (least' z present (named.trans owner)) (least w present' (named'.trans owner.symm))
    rw [above', same]
  rw [above, other, BitVec.le_def, BitVec.le_def, BitVec.toNat_sub_of_le own,
    BitVec.toNat_sub_of_le lower]
  rw [BitVec.le_def] at own lower
  omega

theorem priorityCompare_iff : q.priorityCompare x y = true ↔
    (q.height x).toNat < (q.height y).toNat ∨ (q.height x).toNat = (q.height y).toNat ∧
      y.transaction.gasPrice.toNat < x.transaction.gasPrice.toNat := by
  rw [priorityCompare, Bool.or_eq_true, Bool.and_eq_true, decide_eq_true_iff, beq_iff_eq,
    decide_eq_true_iff, BitVec.lt_def, BitVec.lt_def, BitVec.toNat_inj]

theorem priorityCompare_eq_false_iff : q.priorityCompare x y = false ↔
    (q.height y).toNat < (q.height x).toNat ∨ (q.height y).toNat = (q.height x).toNat ∧
      x.transaction.gasPrice.toNat ≤ y.transaction.gasPrice.toNat := by
  rw [← Bool.not_eq_true, priorityCompare_iff]
  omega

theorem weakOrder_priorityCompare (q : TransactionQueue) : WeakOrder q.priorityCompare where
  asymm := by
    intro x y smaller
    rw [priorityCompare_iff] at smaller
    rw [priorityCompare_eq_false_iff]
    omega
  below := by
    intro x y z smaller kept
    rw [priorityCompare_iff] at smaller ⊢
    rw [priorityCompare_eq_false_iff] at kept
    omega

theorem priorityCompare_congr (left : p.firstNonce x.slot.1 = q.firstNonce x.slot.1)
    (right : p.firstNonce y.slot.1 = q.firstNonce y.slot.1) :
    p.priorityCompare x y = q.priorityCompare x y := by
  have first : p.height x = q.height x := by
    rw [height, height]
    exact congrArg (fun n => x.transaction.nonce - BitVec.ofNat 256 n) left
  have second : p.height y = q.height y := by
    rw [height, height]
    exact congrArg (fun n => y.transaction.nonce - BitVec.ofNat 256 n) right
  rw [priorityCompare, priorityCompare, first, second]

end Heights

/-- The current transactions are in the order of the comparison. -/
def Sorted (q : TransactionQueue) : Prop := Ordered q.priorityCompare q.items

/-- A sender that has current transactions in both queues starts from the same nonce in both. -/
theorem Consistent.firstNonce_steady (consistent : q.Consistent) (settled : p.Consistent)
    (member : x ∈ q.items)
    (kept : ∀ y ∈ q.items, y.slot.1 = x.slot.1 →
      (∀ z ∈ q.items, z.slot.1 = x.slot.1 → y.slot.2 ≤ z.slot.2) →
      y ∈ p.items ∧ ∀ z ∈ p.items, z.slot.1 = x.slot.1 → y.slot.2 ≤ z.slot.2) :
    p.firstNonce x.slot.1 = q.firstNonce x.slot.1 := by
  obtain ⟨y, present, owner, least⟩ := exists_first member
  obtain ⟨still, lowest⟩ := kept y present owner least
  rw [← owner, consistent.firstNonce_eq present fun z other same =>
      least z other (same.trans owner),
    settled.firstNonce_eq still fun z other same => lowest z other (same.trans owner)]

theorem Sorted.sublist (sorted : q.Sorted) (fewer : p.items.Sublist q.items)
    (steady : ∀ x ∈ p.items, p.firstNonce x.slot.1 = q.firstNonce x.slot.1) : p.Sorted := by
  apply Ordered.congr (Ordered.sublist sorted fewer)
  intro x left y right
  exact priorityCompare_congr (steady x left) (steady y right)

section Entering

variable {host : QueueHost}

/-- A slot whose nonce is not below all those of its sender's current transactions. -/
def Above (q : TransactionQueue) (slot : Address × U256) : Prop :=
  ∀ x ∈ q.items, x.slot.1 = slot.1 → ∃ y ∈ q.items, y.slot.1 = slot.1 ∧ y.slot.2 ≤ slot.2

theorem items_entered (q : TransactionQueue) (k : ℕ) (v : VerifiedTransaction) :
    (q.entered k v).items = q.items.take k ++ v :: q.items.drop k := by
  change (q.current.take k ++ ⟨q.nextHandle, v⟩ :: q.current.drop k).map QueueNode.item = _
  rw [List.map_append, List.map_cons, List.map_take, List.map_drop]
  rfl

theorem mem_items_entered {k : ℕ} : x ∈ (q.entered k v).items ↔ x = v ∨ x ∈ q.items := by
  have perm := (current_entered_perm q k v).map QueueNode.item
  rw [items, perm.mem_iff, List.map_cons, List.mem_cons]
  rfl

theorem Sorted.entered (sorted : q.Sorted) (consistent : q.Consistent)
    (settled : (q.entered (place host q v) v).Consistent) (vacant : q.entry v.slot = none)
    (above : q.Above v.slot) : (q.entered (place host q v) v).Sorted := by
  -- Neither the place nor the handle matters to the comparison.
  have compare : ∀ k, (q.entered k v).priorityCompare = (q.reserve v.slot).priorityCompare := by
    intro k
    funext x y
    have slots : (q.entered k v).currentByAddressAndNonce.map QueueEntry.slot =
        (q.reserve v.slot).currentByAddressAndNonce.map QueueEntry.slot := by
      rw [reserve, vacant]
      simp [TransactionQueue.entered]
    exact priorityCompare_congr (firstNonce_congr slots _) (firstNonce_congr slots _)
  have steady : ∀ x ∈ q.items,
      (q.entered (place host q v) v).firstNonce x.slot.1 = q.firstNonce x.slot.1 := by
    intro x member
    apply consistent.firstNonce_steady settled member
    intro y present owner least
    refine ⟨mem_items_entered.mpr (.inr present), ?_⟩
    intro z listed same
    obtain rfl | before := mem_items_entered.mp listed
    · obtain ⟨w, other, named, lower⟩ := above x member same.symm
      exact BitVec.le_trans (least w other (named.trans same)) lower
    · exact least z before same
  have before : Ordered (q.reserve v.slot).priorityCompare q.items := by
    rw [← compare (place host q v)]
    apply Ordered.congr sorted
    intro x left y right
    exact priorityCompare_congr (steady x left) (steady y right)
  obtain ⟨front, back, items, left, right⟩ :=
    Ordered.exists_split (weakOrder_priorityCompare _) before v
  have placed : place host q v = front.length := by
    rw [place, items]
    exact host.seek_split _ front back v left right
  rw [Sorted, compare, items_entered, placed, items, List.take_left, List.drop_left]
  rw [items] at before
  exact Ordered.insert (weakOrder_priorityCompare _) before left right

theorem Sorted.advanced (sorted : q.Sorted) (consistent : q.Consistent) (member : v ∈ q.future)
    (above : q.Above v.slot) : (q.advanced host v).Sorted := by
  have vacant : q.entry v.slot = none :=
    consistent.entry_eq_none fun w current => consistent.apart current member
  -- The future transactions do not matter to the place.
  have placed : place host (q.forgot v) v = place host q v := by
    have vacant' : (q.forgot v).entry v.slot = none := vacant
    rw [place, place, reserve, reserve, vacant, vacant']
    rfl
  have settled := consistent.advanced host member
  rw [TransactionQueue.advanced, ← placed] at settled ⊢
  exact Sorted.entered (q := q.forgot v) sorted (consistent.forgot member) settled vacant above

theorem mem_items_advanced : x ∈ (q.advanced host v).items ↔ x = v ∨ x ∈ q.items :=
  mem_items_entered

theorem mem_items_advancedAll {next : List VerifiedTransaction} :
    x ∈ (q.advancedAll host next).items ↔ x ∈ next ∨ x ∈ q.items := by
  induction next generalizing q with
  | nil =>
    change x ∈ q.items ↔ _
    simp
  | cons w rest ih =>
    change x ∈ ((q.advanced host w).advancedAll host rest).items ↔ _
    rw [ih, mem_items_advanced, List.mem_cons]
    tauto

theorem Above.advanced {slot : Address × U256} (above : q.Above slot)
    (lower : v.slot.1 = slot.1 → v.slot.2 ≤ slot.2) : (q.advanced host v).Above slot := by
  intro x member owner
  obtain rfl | before := mem_items_advanced.mp member
  · exact ⟨x, member, owner, lower owner⟩
  · obtain ⟨y, present, named, below⟩ := above x before owner
    exact ⟨y, mem_items_advanced.mpr (.inr present), named, below⟩

theorem Sorted.advancedAll {next : List VerifiedTransaction} (sorted : q.Sorted)
    (consistent : q.Consistent) (members : ∀ v ∈ next, v ∈ q.future)
    (growing : next.Pairwise fun v w => v.slot.2.toNat < w.slot.2.toNat)
    (above : ∀ v ∈ next, q.Above v.slot) : (q.advancedAll host next).Sorted := by
  induction next generalizing q with
  | nil => exact sorted
  | cons v rest ih =>
    obtain ⟨larger, others⟩ := List.pairwise_cons.mp growing
    have here := members v List.mem_cons_self
    apply ih (sorted.advanced consistent here (above v List.mem_cons_self))
      (consistent.advanced host here)
    · intro w later
      apply mem_future_advanced host (members w (List.mem_cons_of_mem v later))
      intro same
      have less := larger w later
      rw [same] at less
      exact Nat.lt_irrefl _ less
    · exact others
    · intro w later
      apply (above w (List.mem_cons_of_mem v later)).advanced
      intro _
      exact BitVec.le_def.mpr (Nat.le_of_lt (larger w later))

theorem following_growing (future : List VerifiedTransaction) (a : Address) (fuel : ℕ)
    (nonce : U256) : (following future a fuel nonce).Pairwise
      fun v w => v.slot.2.toNat < w.slot.2.toNat := by
  induction fuel generalizing nonce with
  | zero => exact List.Pairwise.nil
  | succ fuel ih =>
    rw [following]
    split
    · exact List.Pairwise.nil
    · next v found =>
      obtain ⟨-, named⟩ := Keyed.mem_of_find? found
      split
      · exact List.pairwise_singleton _ _
      · next wide =>
        refine List.pairwise_cons.mpr ⟨?_, ih (nonce + 1)⟩
        intro w later
        obtain ⟨-, -, above⟩ := following_mem later
        have next := toNat_add_one wide
        rw [named]
        exact Nat.lt_of_lt_of_le (by rw [next]; exact Nat.lt_succ_self _) above

end Entering

section Leaving

/-- A transaction whose going leaves the first nonce of its sender where it is. -/
def Spared (items : List VerifiedTransaction) (v : VerifiedTransaction) : Prop :=
  (∀ x ∈ items, x.slot.1 = v.slot.1 → x.slot = v.slot) ∨
    ∃ x ∈ items, x.slot.1 = v.slot.1 ∧ x.slot.2 < v.slot.2

variable {n : QueueNode}

theorem items_unlink_sublist (q : TransactionQueue) (n : QueueNode) (h : Hash) :
    (q.unlink n h).items.Sublist q.items :=
  List.filter_sublist.map QueueNode.item

section

variable (consistent : q.Consistent) (member : n ∈ q.current)

include consistent member

theorem Consistent.mem_items_unlink (present : x ∈ q.items) (other : x.slot ≠ n.item.slot) :
    x ∈ (q.unlink n n.item.hash).items := by
  obtain ⟨m, listed, rfl⟩ := mem_items.mp present
  refine mem_items.mpr ⟨m, List.mem_filter.mpr ⟨listed, ?_⟩, rfl⟩
  simp only [bne_iff_ne]
  intro same
  have equal : m = n := List.inj_on_of_nodup_map consistent.handles listed member same
  exact other (by rw [equal])

theorem Consistent.ne_of_mem_unlink (left : x ∈ (q.unlink n n.item.hash).items) :
    x.slot ≠ n.item.slot := by
  obtain ⟨m, listed, rfl⟩ := mem_items.mp left
  obtain ⟨present, other⟩ := List.mem_filter.mp listed
  intro same
  have equal : m = n := List.inj_on_of_nodup_map consistent.item_slots present member same
  simp [equal] at other

end

variable (sorted : q.Sorted) (consistent : q.Consistent)

include sorted consistent

theorem Sorted.unlink (member : n ∈ q.current) (spared : Spared q.items n.item) :
    (q.unlink n n.item.hash).Sorted := by
  apply sorted.sublist (items_unlink_sublist q n _)
  intro x left
  have before := (items_unlink_sublist q n _).subset left
  apply consistent.firstNonce_steady (consistent.unlink member) before
  intro y present owner least
  refine ⟨consistent.mem_items_unlink member present ?_, fun z kept =>
    least z ((items_unlink_sublist q n _).subset kept)⟩
  -- The first transaction of a sender that keeps another one is spared.
  intro same
  obtain alone | ⟨z, listed, named, lower⟩ := spared
  · exact consistent.ne_of_mem_unlink member left
      (alone x before (owner.symm.trans (congrArg Prod.fst same)))
  · have below := least z listed (named.trans ((congrArg Prod.fst same).symm.trans owner))
    rw [same] at below
    exact absurd lower (BitVec.not_lt.mpr below)

theorem Sorted.spared_last (final : q.current.getLast? = some n) : Spared q.items n.item := by
  have member := List.mem_of_getLast? final
  have listed : n.item ∈ q.items := mem_items.mpr ⟨n, member, rfl⟩
  by_cases alone : ∀ x ∈ q.items, x.slot.1 = n.item.slot.1 → x.slot = n.item.slot
  · exact .inl alone
  · push Not at alone
    obtain ⟨x, present, owner, other⟩ := alone
    refine .inr ⟨x, present, owner, ?_⟩
    -- Another transaction of the sender stands before the last one and is not above it.
    obtain ⟨front, shape⟩ := List.getLast?_eq_some_iff.mp final
    have items : q.items = front.map QueueNode.item ++ [n.item] := by
      rw [TransactionQueue.items, shape, List.map_append]
      rfl
    have earlier : x ∈ front.map QueueNode.item := by
      rw [items] at present
      obtain before | same := List.mem_append.mp present
      · exact before
      · rw [List.mem_singleton.mp same] at other
        exact absurd rfl other
    have kept : q.priorityCompare n.item x = false := by
      have ordered := sorted
      rw [Sorted, items] at ordered
      exact (List.pairwise_append.mp ordered).2.2 x earlier n.item List.mem_cons_self
    rw [priorityCompare_eq_false_iff] at kept
    have low : q.height x ≤ q.height n.item := by
      rw [BitVec.le_def]
      omega
    have nonces := (consistent.height_le_iff present listed owner).mp low
    refine BitVec.lt_def.mpr (Nat.lt_of_le_of_ne (BitVec.le_def.mp nonces) ?_)
    intro same
    exact other (Prod.ext owner (BitVec.eq_of_toNat_eq same))

theorem Sorted.shortened (shortened : Shortened q p) : p.Sorted := by
  induction shortened with
  | refl => exact sorted
  | last final _ ih =>
    have member := List.mem_of_getLast? final
    exact ih (sorted.unlink consistent member (sorted.spared_last consistent final))
      (consistent.unlink member)

/-- Putting a transaction off with all that follow it leaves the queue sorted. -/
theorem Sorted.postponed {first : Address × U256} (postponed : Postponed q (notBefore first) p) :
    p.Sorted := by
  have kept_iff : ∀ x, x ∈ p.items ↔ x ∈ q.items ∧ notBefore first x.slot = false := by
    intro x
    rw [mem_items, postponed.current]
    constructor
    · rintro ⟨m, kept, rfl⟩
      obtain ⟨present, stays⟩ := List.mem_filter.mp kept
      exact ⟨mem_items.mpr ⟨m, present, rfl⟩, by simpa using stays⟩
    · rintro ⟨listed, stays⟩
      obtain ⟨m, present, rfl⟩ := mem_items.mp listed
      exact ⟨m, List.mem_filter.mpr ⟨present, by simpa using stays⟩, rfl⟩
  apply sorted.sublist
  · rw [items, postponed.current]
    exact List.filter_sublist.map QueueNode.item
  · intro x left
    obtain ⟨before, stays⟩ := (kept_iff x).mp left
    apply consistent.firstNonce_steady postponed.consistent before
    intro y present owner least
    refine ⟨(kept_iff y).mpr ⟨present, ?_⟩, fun z kept => least z ((kept_iff z).mp kept).1⟩
    -- If the first transaction went, the larger nonce would have gone as well.
    by_contra gone
    rw [Bool.not_eq_false, notBefore, Bool.and_eq_true, beq_iff_eq, decide_eq_true_iff] at gone
    have above := BitVec.le_trans gone.2 (least x before rfl)
    have also : notBefore first x.slot = true := by
      rw [notBefore, Bool.and_eq_true, beq_iff_eq, decide_eq_true_iff]
      exact ⟨owner.symm.trans gone.1, above⟩
    rw [stays] at also
    cases also

end Leaving

section Runs

variable {host : QueueHost} {sha3 : Transaction → Hash} {c : Call} {s : TransactionQueue}

/-- The calls that leave the first nonce of every sender where it is, unless all of them go. -/
def Steady (sha3 : Transaction → Hash) (q : TransactionQueue) : Call → Prop
  | .importTransaction t _ => q.Above (t.safeSender, t.nonce) ∧ t.nonce + 1 ≠ 0
  | .setFuture _ => True
  | .drop h => ∀ v ∈ q.items, v.hash = h → Spared q.items v
  | .dropGood t => (∀ v ∈ q.successors t, q.Above v.slot) ∧
    ∀ v ∈ q.successors t ++ q.items, v.hash = sha3 t → Spared (q.successors t ++ q.items) v
  | .clear => True

theorem Thinned.sorted (thinned : Thinned q p) (sorted : q.Sorted) : p.Sorted := by
  rw [thinned.frame]
  exact sorted

theorem Sorted.replaced (sorted : q.Sorted) (v : VerifiedTransaction) : (q.replaced v).Sorted := by
  rw [TransactionQueue.replaced]
  split
  · exact sorted
  · exact sorted

theorem Above.replaced {slot : Address × U256} (above : q.Above slot) (v : VerifiedTransaction) :
    (q.replaced v).Above slot := by
  rw [TransactionQueue.replaced]
  split
  · exact above
  · exact above

theorem Imported.sorted (imported : Imported host q v s) (consistent : q.Consistent)
    (unknown : ∀ w ∈ q.held, w.hash ≠ v.hash) (sent : v.sent = true) (sorted : q.Sorted)
    (above : q.Above v.slot) (wide : v.transaction.nonce + 1 ≠ 0) : s.Sorted := by
  obtain @⟨p, s, vacant, -, thinned, shortened⟩ := imported
  obtain ⟨slot, hash⟩ := consistent.replaced_apart vacant unknown
  have settled := (consistent.replaced v).1
  have free := settled.entry_eq_none fun w current => slot w (List.mem_append_left _ current)
  have entered := settled.entered (place host (q.replaced v) v) slot hash sent
  have first := (sorted.replaced v).entered settled entered free (above.replaced v)
  -- All that follows the new transaction has a larger nonce.
  have joined : ((q.replaced v).joined host v).Sorted := by
    apply first.advancedAll entered
    · intro w member
      exact (successors_mem member).1
    · exact following_growing _ _ _ _
    · intro w member x _ _
      obtain ⟨-, owner, larger⟩ := successors_mem member
      refine ⟨v, mem_items_entered.mpr (.inl rfl), owner.symm, ?_⟩
      rw [toNat_add_one wide] at larger
      exact BitVec.le_def.mpr (Nat.le_of_succ_le larger)
  have noted : Sorted { p with known := insert v.hash p.known } := thinned.sorted joined
  exact noted.shortened (thinned.consistent.record _ _) shortened

theorem Stepped.sorted (stepped : Stepped host sha3 q c s) (consistent : q.Consistent)
    (covered : q.Covered) (recoverable : c.Recoverable) (steady : q.Steady sha3 c)
    (sorted : q.Sorted) : s.Sorted := by
  have followers : ∀ t : Transaction, (∀ v ∈ q.successors t, q.Above v.slot) →
      (q.advancedAll host (q.successors t)).Sorted := fun t above =>
    sorted.advancedAll consistent (fun v member => (successors_mem member).1)
      (following_growing _ _ _ _) above
  cases stepped with
  | turnedAway | notCurrent | notKnown | noted => exact sorted
  | @imported t _ _ unknown imported =>
    obtain ⟨above, wide⟩ := steady
    have fresh : ∀ w ∈ q.held, w.hash ≠ sha3 t := fun w member same =>
      unknown (same ▸ covered w member)
    exact imported.sorted consistent fresh recoverable sorted above wide
  | postponed _ postponed => exact sorted.postponed consistent postponed
  | @dropped n member =>
    have settled : (q.withDropped n.item.hash).Consistent :=
      consistent.record q.known (insert n.item.hash q.dropped)
    have listed : n.item ∈ q.items := mem_items.mpr ⟨n, member, rfl⟩
    exact Sorted.unlink (q := q.withDropped n.item.hash) sorted settled member
      (steady n.item listed rfl)
  | @followed t p thinned => exact thinned.sorted (followers t steady.1)
  | @mined t p n thinned member hash =>
    apply (thinned.sorted (followers t steady.1)).unlink thinned.consistent member
    -- The current transactions are the old ones and those that followed.
    have same : ∀ x, x ∈ p.items ↔ x ∈ q.successors t ++ q.items := by
      intro x
      rw [thinned.items, mem_items_advancedAll, List.mem_append]
    have listed := (same n.item).mp (mem_items.mpr ⟨n, member, rfl⟩)
    obtain alone | ⟨x, present, owner, lower⟩ := steady.2 n.item listed hash
    · exact .inl fun x present => alone x ((same x).mp present)
    · exact .inr ⟨x, (same x).mpr present, owner, lower⟩
  | cleared => exact List.Pairwise.nil

/-- Calls that all leave the first nonces where they are. -/
def SteadyRun (sha3 : Transaction → Hash) : TransactionQueue → List (QueueHost × Call) → Prop
  | _, [] => True
  | q, c :: rest => q.Steady sha3 c.2 ∧ SteadyRun sha3 (final ((call c.1 sha3 c.2).run q)) rest

theorem Sorted.calls_run {made : List (QueueHost × Call)} (sorted : q.Sorted)
    (consistent : q.Consistent) (covered : q.Covered)
    (recoverable : ∀ c ∈ made, c.2.Recoverable) (steady : SteadyRun sha3 q made) :
    ∃ s, (calls sha3 made).run q = .ok () s ∧ s.Consistent ∧ s.Sorted := by
  induction made generalizing q with
  | nil => exact ⟨q, rfl, consistent, sorted⟩
  | cons c rest ih =>
    obtain ⟨here, onward⟩ := steady
    have fine := recoverable c List.mem_cons_self
    obtain ⟨m, ran, stepped⟩ := consistent.call_run covered c.2 fine c.1 sha3
    rw [ran] at onward
    obtain ⟨s, later, settled, kept⟩ := ih (stepped.sorted consistent covered fine here sorted)
      (stepped.consistent consistent) (stepped.covered consistent covered fine)
      (fun d member => recoverable d (List.mem_cons_of_mem c member)) onward
    refine ⟨s, ?_, settled, kept⟩
    rw [calls, forM_cons, bind_ok ran]
    exact later

/-- While no first nonce moves, the queue lists transactions by height and by falling price. -/
theorem topTransactions_sorted (sha3 : Transaction → Hash) (limit futureLimit : BitVec 32)
    (made : List (QueueHost × Call)) (recoverable : ∀ c ∈ made, c.2.Recoverable)
    (steady : SteadyRun sha3 (fresh limit futureLimit) made) :
    ∃ q, (calls sha3 made).run (fresh limit futureLimit) = .ok () q ∧
      (∀ x ∈ q.items, ∃ y ∈ q.items, y.slot.1 = x.slot.1 ∧
        (∀ z ∈ q.items, z.slot.1 = x.slot.1 → y.slot.2 ≤ z.slot.2) ∧
        q.height x = x.slot.2 - y.slot.2) ∧
      ∀ (count : ℕ) (avoid : Finset Hash),
        (q.topTransactions count avoid).Pairwise (fun x y => q.height x < q.height y ∨
          q.height x = q.height y ∧ y.transaction.gasPrice ≤ x.transaction.gasPrice) ∧
        (q.topTransactions count avoid).Pairwise (fun x y => x.slot.1 = y.slot.1 →
          x.slot.2 < y.slot.2) := by
  have empty : (fresh limit futureLimit).Covered := by
    intro v member
    cases member
  have start : (fresh limit futureLimit).Sorted := List.Pairwise.nil
  obtain ⟨q, ran, consistent, sorted⟩ := start.calls_run (consistent_fresh limit futureLimit)
    empty recoverable steady
  refine ⟨q, ran, fun x member => consistent.height_eq member, fun count avoid => ?_⟩
  have fewer : (q.topTransactions count avoid).Sublist q.items :=
    (List.take_sublist _ _).trans List.filter_sublist
  constructor
  · refine (Ordered.sublist sorted fewer).imp ?_
    intro x y kept
    rw [priorityCompare_eq_false_iff] at kept
    rw [BitVec.lt_def, BitVec.le_def, ← BitVec.toNat_inj]
    exact kept
  · have slots : q.items.Pairwise fun x y => x.slot ≠ y.slot := by
      have distinct := consistent.item_slots
      have shape : (q.current.map fun n => n.item.slot) = q.items.map VerifiedTransaction.slot := by
        rw [items, List.map_map]
        rfl
      rw [shape] at distinct
      exact List.pairwise_map.mp distinct
    have both := (List.Pairwise.and sorted slots).sublist fewer
    refine both.imp_of_mem ?_
    rintro x y left right ⟨kept, apart⟩ owner
    rw [priorityCompare_eq_false_iff] at kept
    have low : q.height x ≤ q.height y := by
      rw [BitVec.le_def]
      omega
    have nonces := (consistent.height_le_iff (fewer.subset left) (fewer.subset right) owner).mp low
    refine BitVec.lt_def.mpr (Nat.lt_of_le_of_ne (BitVec.le_def.mp nonces) ?_)
    intro same
    exact apart (Prod.ext owner (BitVec.eq_of_toNat_eq same))

instance (q : TransactionQueue) (slot : Address × U256) : Decidable (q.Above slot) :=
  inferInstanceAs (Decidable (∀ x ∈ q.items, _ → ∃ y ∈ q.items, _))

instance (items : List VerifiedTransaction) (v : VerifiedTransaction) :
    Decidable (Spared items v) :=
  inferInstanceAs (Decidable (_ ∨ _))

instance (sha3 : Transaction → Hash) (q : TransactionQueue) :
    (c : Call) → Decidable (q.Steady sha3 c)
  | .importTransaction _ _ => inferInstanceAs (Decidable (_ ∧ _))
  | .setFuture _ => inferInstanceAs (Decidable True)
  | .drop _ => inferInstanceAs (Decidable (∀ v ∈ q.items, _ → _))
  | .dropGood _ => inferInstanceAs (Decidable (_ ∧ _))
  | .clear => inferInstanceAs (Decidable True)

instance (sha3 : Transaction → Hash) : (q : TransactionQueue) →
    (made : List (QueueHost × Call)) → Decidable (SteadyRun sha3 q made)
  | _, [] => inferInstanceAs (Decidable True)
  | q, c :: rest =>
    have : Decidable (SteadyRun sha3 (final ((call c.1 sha3 c.2).run q)) rest) :=
      instDecidableSteadyRun sha3 _ rest
    inferInstanceAs (Decidable (_ ∧ _))

/-- Two senders with two transactions each, the last of which goes. -/
def sampleSteady : List (QueueHost × Call) :=
  [sampleImport (.ok 5) 0 1, sampleImport (.ok 6) 3 5, sampleImport (.ok 5) 1 10,
    sampleImport (.ok 6) 4 20, (plainHost, .drop (sampleHash (sampleTransaction (.ok 5) 1 10)))]

/-- A run of imports and a drop. -/
theorem topTransactions_sorted_steady :
    ∃ q, sampleRun 10 sampleSteady = .ok () q ∧
      (q.topTransactions 3 ∅).Pairwise (fun x y => q.height x < q.height y ∨
        q.height x = q.height y ∧ y.transaction.gasPrice ≤ x.transaction.gasPrice) := by
  have recoverable : ∀ c ∈ sampleSteady, c.2.Recoverable := by
    simp [sampleSteady, sampleImport, Call.Recoverable, sampleTransaction, Transaction.sender,
      Except.isOk, Except.toBool]
  obtain ⟨q, ran, -, sorted⟩ := topTransactions_sorted sampleHash 10 10 sampleSteady recoverable
    (by decide +kernel)
  exact ⟨q, ran, (sorted 3 ∅).1⟩

/-- A host that searches from the back. -/
def backHost : QueueHost where
  seek := fun less items v => (items.reverse.dropWhile fun x => less v x).length
  meets := fun _ _ _ => true
  first := plainHost.first
  seek_split := by
    intro less before after v left right
    rw [List.reverse_append, List.dropWhile_append_of_pos
      fun x member => right x (List.mem_reverse.mp member)]
    cases shape : before.reverse with
    | nil => simp [List.reverse_eq_nil_iff.mp shape]
    | cons x rest =>
      have member : x ∈ before := List.mem_reverse.mp (shape ▸ List.mem_cons_self)
      have length := congrArg List.length shape
      rw [List.length_reverse] at length
      rw [List.dropWhile_cons, left x member, length]
      rfl
  first_mem := plainHost.first_mem

/-- When the first transaction of a sender is mined the next one may be too far back, and when one
arrives with a smaller nonce it may be put behind those that should follow it. -/
theorem topTransactions_unsorted :
    (∃ q, sampleRun 10 [sampleImport (.ok 5) 0 1, sampleImport (.ok 6) 0 5,
        sampleImport (.ok 5) 1 10, (plainHost, .dropGood (sampleTransaction (.ok 5) 0 1))] =
        .ok () q ∧
      (q.topTransactions 2 ∅).map (fun v => (v.slot.1, q.height v, v.transaction.gasPrice)) =
        [(6, 0, 5), (5, 0, 10)]) ∧
    ∃ q, sampleRun 10 [sampleImport (.ok 6) 0 5, sampleImport (.ok 5) 5 10,
        (backHost, .importTransaction (sampleTransaction (.ok 5) 3 1) .ignore)] = .ok () q ∧
      (q.topTransactions 3 ∅).map VerifiedTransaction.slot = [(5, 5), (6, 0), (5, 3)] := by
  refine ⟨⟨_, rfl, ?_⟩, ⟨_, rfl, ?_⟩⟩
  · decide +kernel
  · decide +kernel

end Runs

end TransactionQueue

end Etiam
