import Etiam.Block.Executive
import Etiam.Library.Exec

/-! The queue of transactions that wait for a block, with its indices and its two limits. -/

namespace Etiam

/-- The sender of a transaction, the zero address where none can be recovered. -/
def Transaction.safeSender (t : Transaction) : Address :=
  match t.sender with
  | .ok a => a
  | .error _ => 0

/-- A transaction as the queue holds it, with its hash. -/
structure VerifiedTransaction where
  hash : Hash
  transaction : Transaction

namespace VerifiedTransaction

/-- Where the queue files a transaction: its sender and its nonce. -/
def slot (v : VerifiedTransaction) : Address × U256 :=
  (v.transaction.safeSender, v.transaction.nonce)

/-- Whether the sender of a transaction can be recovered. -/
def sent (v : VerifiedTransaction) : Bool := v.transaction.sender.isOk

end VerifiedTransaction

/-- A node of the ordered queue, known by a handle that stays the same while it is there. -/
structure QueueNode where
  handle : ℕ
  item : VerifiedTransaction

/-- An entry of the index by sender and nonce, with no handle before one is stored in it. -/
structure QueueEntry where
  slot : Address × U256
  handle : Option ℕ

/-- The ways in which a call on the queue breaks off. -/
inductive QueueFault where
  | invalidSignature
  /-- The language leaves open what happens, or a loop does not end. -/
  | undefined
  deriving DecidableEq

inductive ImportResult where
  | success
  | unknownParent
  | futureTimeKnown
  | futureTimeUnknown
  | alreadyInChain
  | alreadyKnown
  | malformed
  | overbidGasPrice
  | badChain
  | zeroSignature
  | irreversible
  deriving DecidableEq

/-- Whether a transaction that was dropped before may come back. -/
inductive IfDropped where
  | ignore
  | retry
  deriving DecidableEq

/-- What the containers of the host decide during one call. -/
structure QueueHost where
  /-- Where the ordered queue puts a new item. -/
  seek : (VerifiedTransaction → VerifiedTransaction → Bool) → List VerifiedTransaction →
    VerifiedTransaction → ℕ
  /-- Which items the search for that place looks at. -/
  meets : List VerifiedTransaction → VerifiedTransaction → VerifiedTransaction → Bool
  /-- The sender whose transactions come first in the table of future ones. -/
  first : List VerifiedTransaction → Address
  /-- Where the items are split by the comparison, the new item is put at the split. -/
  seek_split : ∀ (less : VerifiedTransaction → VerifiedTransaction → Bool)
    (before after : List VerifiedTransaction) (v : VerifiedTransaction),
    (∀ x ∈ before, less v x = false) → (∀ x ∈ after, less v x = true) →
      seek less (before ++ after) v = before.length
  first_mem : ∀ future : List VerifiedTransaction, future ≠ [] →
    ∃ v ∈ future, v.transaction.safeSender = first future

/-- The transaction queue, where each transaction that is not current is filed by its own slot. -/
structure TransactionQueue where
  known : Finset Hash
  dropped : Finset Hash
  current : List QueueNode
  currentByHash : Hash → Option ℕ
  currentByAddressAndNonce : List QueueEntry
  future : List VerifiedTransaction
  futureSize : BitVec 32
  limit : BitVec 32
  futureLimit : BitVec 32
  nextHandle : ℕ

/-- A program on the queue. -/
abbrev QueueM := EStateM QueueFault TransactionQueue

namespace TransactionQueue

/-- The queue before its first call. -/
def fresh (limit futureLimit : BitVec 32) : TransactionQueue where
  known := ∅
  dropped := ∅
  current := []
  currentByHash := fun _ => none
  currentByAddressAndNonce := []
  future := []
  futureSize := 0
  limit
  futureLimit
  nextHandle := 0

section Queries

variable (q : TransactionQueue)

/-- The current transactions in the order of the queue. -/
def items : List VerifiedTransaction := q.current.map QueueNode.item

/-- The node that a handle stands for. -/
def node (handle : ℕ) : Option QueueNode := q.current.find? fun n => n.handle == handle

/-- The entry of the index for a sender and a nonce. -/
def entry (slot : Address × U256) : Option QueueEntry :=
  q.currentByAddressAndNonce.find? fun e => e.slot == slot

/-- The future transaction of a sender with a nonce. -/
def futureAt (slot : Address × U256) : Option VerifiedTransaction :=
  q.future.find? fun v => v.slot == slot

/-- The smallest nonce that the index has for a sender. -/
def firstNonce (a : Address) : ℕ :=
  (((q.currentByAddressAndNonce.filter fun e => e.slot.1 == a).map
    fun e => e.slot.2.toNat).min?).getD 0

/-- How far the nonce of a transaction is above the smallest one of its sender. -/
def height (v : VerifiedTransaction) : U256 :=
  v.transaction.nonce - BitVec.ofNat 256 (q.firstNonce v.transaction.safeSender)

/-- The order of the queue: by height, and for equal heights by falling gas price. -/
def priorityCompare (x y : VerifiedTransaction) : Bool :=
  decide (q.height x < q.height y) ||
    (q.height x == q.height y && decide (y.transaction.gasPrice < x.transaction.gasPrice))

/-- The first transactions of the queue that are not to be avoided. -/
def topTransactions (limit : ℕ) (avoid : Finset Hash) : List VerifiedTransaction :=
  (q.items.filter fun v => v.hash ∉ avoid).take limit

end Queries

section Updates

variable (q : TransactionQueue)

/-- Make sure that the index has an entry. -/
def reserve (slot : Address × U256) : TransactionQueue :=
  if (q.entry slot).isSome then q
  else { q with currentByAddressAndNonce := q.currentByAddressAndNonce ++ [⟨slot, none⟩] }

/-- Put a new node at a place of the ordered queue. -/
def insertNode (k : ℕ) (v : VerifiedTransaction) : TransactionQueue :=
  { q with
    current := q.current.take k ++ ⟨q.nextHandle, v⟩ :: q.current.drop k
    nextHandle := q.nextHandle + 1 }

/-- Let the two indices lead to a node. -/
def point (v : VerifiedTransaction) (handle : ℕ) : TransactionQueue :=
  { q with
    currentByAddressAndNonce := q.currentByAddressAndNonce.map fun e =>
      if e.slot == v.slot then { e with handle := some handle } else e
    currentByHash := Function.update q.currentByHash v.hash (some handle) }

/-- Take a node out of the ordered queue and of both indices, and forget its hash. -/
def unlink (n : QueueNode) (hash : Hash) : TransactionQueue :=
  { q with
    currentByAddressAndNonce := q.currentByAddressAndNonce.filter fun e => e.slot != n.item.slot
    current := q.current.filter fun m => m.handle != n.handle
    currentByHash := Function.update q.currentByHash hash none
    known := q.known.erase hash }

/-- Take future transactions out. -/
def withoutFuture (slots : List (Address × U256)) : TransactionQueue :=
  { q with future := q.future.filter fun v => v.slot ∉ slots }

/-- Take out the future transaction that is filed where another one is. -/
def forgot (v : VerifiedTransaction) : TransactionQueue :=
  { q.withoutFuture [v.slot] with futureSize := q.futureSize - 1 }

/-- Move one node from the ordered queue to the future transactions. -/
def postpone (n : QueueNode) : TransactionQueue :=
  { q with
    currentByHash := Function.update q.currentByHash n.item.hash none
    future := if (q.futureAt n.item.slot).isSome then q.future else q.future ++ [n.item]
    current := q.current.filter fun m => m.handle != n.handle
    futureSize := q.futureSize + 1 }

end Updates

section Programs

variable (host : QueueHost)

/-- Put an item into the ordered queue, where the comparison needs the senders. -/
def emplace (v : VerifiedTransaction) : QueueM ℕ := do
  let q ← get
  if (q.items ≠ [] ∧ v.sent = false) ∨
      ∃ x ∈ q.items, host.meets q.items v x = true ∧ x.sent = false then
    throw .invalidSignature
  set (q.insertNode (host.seek q.priorityCompare q.items v) v)
  return q.nextHandle

/-- Make a transaction current. -/
def enter (v : VerifiedTransaction) : QueueM Unit := do
  modify fun q => q.reserve v.slot
  let handle ← emplace host v
  modify fun q => q.point v handle

/-- The future transactions of a sender whose nonces follow each other from a given one. -/
def following (future : List VerifiedTransaction) (a : Address) :
    ℕ → U256 → List VerifiedTransaction
  | 0, _ => []
  | fuel + 1, nonce =>
    match future.find? fun v => v.slot == (a, nonce) with
    | none => []
    | some v => v :: if nonce + 1 = 0 then [] else following future a fuel (nonce + 1)

/-- The future transactions that become current with a transaction, at most all there are. -/
def successors (q : TransactionQueue) (t : Transaction) : List VerifiedTransaction :=
  following q.future t.safeSender q.future.length (t.nonce + 1)

/-- Make a future transaction current, with its place among the future ones still taken. -/
def advance (v : VerifiedTransaction) : QueueM Unit := do
  enter host v
  modify fun q => { q with futureSize := q.futureSize - 1 }

/-- The future transaction of a sender with the largest nonce. -/
def lastFuture (future : List VerifiedTransaction) (a : Address) : Option VerifiedTransaction :=
  (future.filter fun v => v.transaction.safeSender == a).argmax fun v => v.transaction.nonce.toNat

/-- Drop future transactions until the limit is kept. -/
def trimFuture : ℕ → QueueM Unit
  | 0 => pure ()
  | fuel + 1 => do
    let q ← get
    if q.futureSize ≤ q.futureLimit then return
    match lastFuture q.future (host.first q.future) with
    | none => throw .undefined
    | some v =>
      set (q.forgot v)
      trimFuture fuel

/-- Make the future transactions current that follow a transaction. -/
def makeCurrent (t : Transaction) : QueueM Unit := do
  let q ← get
  let next := q.successors t
  next.forM (advance host)
  -- The places among the future ones are given up when all have moved.
  modify fun q => q.withoutFuture (next.map VerifiedTransaction.slot)
  let q ← get
  trimFuture host q.futureSize.toNat

/-- Make a new transaction current, and those that follow it. -/
def insertCurrent (v : VerifiedTransaction) : QueueM Unit := do
  let q ← get
  if (q.currentByHash v.hash).isSome then return
  enter host v
  makeCurrent host v.transaction
  modify fun q => { q with known := insert v.hash q.known }

/-- Remove a current transaction. -/
def remove (hash : Hash) : QueueM Bool := do
  let q ← get
  match q.currentByHash hash with
  | none => return false
  | some handle =>
    match q.node handle with
    | none => throw .undefined
    | some n =>
      if (q.currentByAddressAndNonce.find? fun e => e.slot.1 == n.item.slot.1).isNone then
        throw .undefined
      set (q.unlink n hash)
      return true

/-- Remove the last current transactions until the limit is kept. -/
def trimCurrent : ℕ → QueueM Unit
  | 0 => pure ()
  | fuel + 1 => do
    let q ← get
    if q.current.length ≤ q.limit.toNat then return
    match q.current.getLast? with
    | none => throw .undefined
    | some n =>
      if ← remove n.item.hash then trimCurrent fuel
      else throw .undefined

/-- Give up the future transaction that a new one takes the place of. -/
def replaced (q : TransactionQueue) (v : VerifiedTransaction) : TransactionQueue :=
  if (q.futureAt v.slot).isSome then q.forgot v else q

/-- Import a transaction whose hash is not known. -/
def manageImport (v : VerifiedTransaction) : QueueM ImportResult := do
  let q ← get
  match q.entry v.slot with
  | some e =>
    match e.handle.bind q.node with
    | none => throw .undefined
    | some n =>
      if v.transaction.gasPrice < n.item.transaction.gasPrice then return .overbidGasPrice
      else return .alreadyKnown
  | none =>
    if (q.futureAt v.slot).any
        fun w => decide (v.transaction.gasPrice < w.transaction.gasPrice) then
      return .overbidGasPrice
    else
      set (q.replaced v)
      insertCurrent host v
      let q ← get
      trimCurrent q.current.length
      return .success

variable (sha3 : Transaction → Hash)

/-- Import a transaction, where it takes a recovered sender to compare it with others. -/
def importTransaction (t : Transaction) (ik : IfDropped) : QueueM ImportResult := do
  if t.hasZeroSignature then return .zeroSignature
  let q ← get
  if sha3 t ∈ q.known then return .alreadyKnown
  if sha3 t ∈ q.dropped ∧ ik = .ignore then return .alreadyInChain
  tryCatch (manageImport host ⟨sha3 t, t⟩) fun fault =>
    match fault with
    | .invalidSignature => return .malformed
    | .undefined => throw .undefined

/-- Whether a slot is of the same sender as another and not before it. -/
def notBefore (first slot : Address × U256) : Bool :=
  slot.1 == first.1 && decide (first.2 ≤ slot.2)

/-- Make the transaction of an entry a future one. -/
def postponeEntry (e : QueueEntry) : QueueM Unit := do
  let q ← get
  match e.handle.bind q.node with
  | none => throw .undefined
  | some n => set (q.postpone n)

/-- Make a current transaction and those after it of the same sender future ones. -/
def setFuture (hash : Hash) : QueueM Unit := do
  let q ← get
  match q.currentByHash hash with
  | none => return
  | some handle =>
    match q.node handle with
    | none => throw .undefined
    | some n =>
      (q.currentByAddressAndNonce.filter fun e => notBefore n.item.slot e.slot).forM postponeEntry
      modify fun q => { q with
        currentByAddressAndNonce :=
          q.currentByAddressAndNonce.filter fun e => !notBefore n.item.slot e.slot }

/-- Drop a transaction for good. -/
def drop (hash : Hash) : QueueM Unit := do
  let q ← get
  if hash ∈ q.known then
    set { q with dropped := insert hash q.dropped }
    let _ ← remove hash

/-- Drop a transaction that is in a block now, and make current what follows it. -/
def dropGood (t : Transaction) : QueueM Unit := do
  makeCurrent host t
  let q ← get
  if sha3 t ∈ q.known then
    let _ ← remove (sha3 t)

/-- Forget all transactions but those that were dropped. -/
def clear : QueueM Unit :=
  modify fun q => { q with
    known := ∅
    current := []
    currentByAddressAndNonce := []
    currentByHash := fun _ => none
    future := []
    futureSize := 0 }

end Programs

/-- A call on the queue. -/
inductive Call where
  | importTransaction (t : Transaction) (ik : IfDropped)
  | setFuture (hash : Hash)
  | drop (hash : Hash)
  | dropGood (t : Transaction)
  | clear

/-- Make one call. -/
def call (host : QueueHost) (sha3 : Transaction → Hash) : Call → QueueM Unit
  | .importTransaction t ik => discard (importTransaction host sha3 t ik)
  | .setFuture hash => setFuture hash
  | .drop hash => drop hash
  | .dropGood t => dropGood host sha3 t
  | .clear => clear

/-- Make calls one after the other, each with what the host decides during it. -/
def calls (sha3 : Transaction → Hash) (made : List (QueueHost × Call)) : QueueM Unit :=
  made.forM fun c => call c.1 sha3 c.2

end TransactionQueue

end Etiam
