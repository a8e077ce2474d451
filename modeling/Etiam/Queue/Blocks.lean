import Etiam.Library.Descent
import Etiam.Library.Runs
import Etiam.Queue.Transactions

/-! The queue of blocks between the network and the chain, with the threads that verify them. -/

namespace Etiam

/-- What the block queue reads of a block, and what verifying it says. -/
structure BlockFacts (α : Type) where
  hash : α → Hash
  parentHash : α → Hash
  sha3Uncles : α → Hash
  timestamp : α → ℕ
  /-- The timestamp as it is filed, in the time type of the system. -/
  futureKey : α → ℤ
  /-- Whether a block passes the checks that are made when it arrives. -/
  wellFormed : α → Bool
  /-- Whether it passes those that a verifier makes. -/
  valid : α → Bool
  hash_injective : Function.Injective hash
  /-- A list of uncles that a verifier accepts does not have the hash of a block. -/
  uncles_apart : ∀ b c, valid b = true → sha3Uncles b ≠ hash c

namespace BlockFacts

variable {α : Type} (facts : BlockFacts α)

/-- The hashes of a list of blocks. -/
def hashes (blocks : List α) : Finset Hash := (blocks.map facts.hash).toFinset

/-- The hash of a block with that of its parent. -/
def entry (b : α) : Hash × Hash := Descent.entry facts.hash facts.parentHash b

/-- A block is among the bad ones, or its parent is. -/
def marked (bad : Finset Hash) (b : α) : Bool := facts.parentHash b ∈ bad ∨ facts.hash b ∈ bad

end BlockFacts

/-- A place in the queue of blocks that are being verified. -/
inductive VerifyingSlot (α : Type) where
  /-- A block that some verifier has, known by its hash and its parent. -/
  | pending (hash parentHash : Hash)
  /-- A block that has been verified. -/
  | done (b : α)

namespace VerifyingSlot

variable {α : Type} (facts : BlockFacts α)

/-- The hash of the block in a place. -/
def hash : VerifyingSlot α → Hash
  | pending hash _ => hash
  | done b => facts.hash b

/-- The hash for the uncles in the header of a place, where a pending one has that of its block. -/
def sha3Uncles : VerifyingSlot α → Hash
  | pending hash _ => hash
  | done b => facts.sha3Uncles b

/-- The parent of the block in a place. -/
def parentHash : VerifyingSlot α → Hash
  | pending _ parentHash => parentHash
  | done b => facts.parentHash b

/-- The hash of the block in a place with that of its parent. -/
def entry (s : VerifyingSlot α) : Hash × Hash := (s.hash facts, s.parentHash facts)

/-- A place is found to have a bad block, or one with a bad parent. -/
def marked (bad : Finset Hash) (s : VerifyingSlot α) : Bool :=
  s.parentHash facts ∈ bad ∨ s.sha3Uncles facts ∈ bad

end VerifyingSlot

namespace SizedBlockQueue

variable {β : Type}

/-- Take the members out that meet a condition. The others move up, and what is handed back is the
end of the queue that they leave, with what stood there before. -/
def removeIf (p : β → Bool) (queue : List β) : List β × List β :=
  let kept := queue.filter fun t => !p t
  (kept, queue.drop kept.length)

end SizedBlockQueue

/-- The block queue. -/
structure BlockQueue (α : Type) where
  readySet : Finset Hash
  drainingSet : Finset Hash
  unknownSet : Finset Hash
  /-- The blocks that wait for their parents. -/
  unknown : List α
  knownBad : Finset Hash
  futureSet : Finset Hash
  /-- The blocks whose time has not come. -/
  future : List α
  verified : List α
  verifying : List (VerifyingSlot α)
  unverified : List α

/-- Where a block is. -/
inductive QueueStatus where
  | ready
  | importing
  | unknownParent
  | bad
  | unknown
  | future
  deriving DecidableEq

namespace BlockQueue

variable {α : Type} (facts : BlockFacts α)

/-- The queue before its first block. -/
def empty : BlockQueue α where
  readySet := ∅
  drainingSet := ∅
  unknownSet := ∅
  unknown := []
  knownBad := ∅
  futureSet := ∅
  future := []
  verified := []
  verifying := []
  unverified := []

variable (q : BlockQueue α)

/-- The number of blocks that are ready, by the queues they are in. -/
def knownCount : ℕ := q.verified.length + q.unverified.length + q.verifying.length

section Descendants

/-- The blocks that wait for their parents and descend from a block, and those that do not. -/
def descendants (h : Hash) : List α × List α :=
  Descent.descend facts.hash facts.parentHash (1 + q.unknown.length) [h] q.unknown

/-- Note as bad what waits for its parent and descends from a bad block. -/
def collectUnknownBad (bad : Hash) : BlockQueue α :=
  let (removed, rest) := q.descendants facts bad
  { q with
    unknown := rest
    unknownSet := q.unknownSet \ facts.hashes removed
    knownBad := q.knownBad ∪ facts.hashes removed }

/-- Make ready what waits for its parent and descends from a ready block. -/
def noteReady (good : Hash) : BlockQueue α :=
  let (removed, rest) := q.descendants facts good
  { q with
    unknown := rest
    unknownSet := q.unknownSet \ facts.hashes removed
    unverified := q.unverified ++ removed
    readySet := q.readySet ∪ facts.hashes removed }

end Descendants

section Bad

/-- Note that a block is bad, which it is with its descendants, and not ready. -/
def condemn (h : Hash) : BlockQueue α :=
  collectUnknownBad facts
    { q with knownBad := insert h q.knownBad, readySet := q.readySet.erase h } h

/-- Take the bad blocks out of the verified ones, and tell whether there are any. -/
def sweepVerified : BlockQueue α × Bool :=
  let (kept, badVerified) := SizedBlockQueue.removeIf (facts.marked q.knownBad) q.verified
  ((badVerified.map facts.hash).foldl (condemn facts) { q with verified := kept },
    !badVerified.isEmpty)

/-- Take the bad blocks out of the unverified ones, and tell whether there are any. -/
def sweepUnverified : BlockQueue α × Bool :=
  let (kept, badUnverified) := SizedBlockQueue.removeIf (facts.marked q.knownBad) q.unverified
  ((badUnverified.map facts.hash).foldl (condemn facts) { q with unverified := kept },
    !badUnverified.isEmpty)

/-- Take the bad blocks out of those being verified, and tell whether there are any. -/
def sweepVerifying : BlockQueue α × Bool :=
  let bad := VerifyingSlot.marked facts q.knownBad
  let (kept, badVerifying) := SizedBlockQueue.removeIf bad q.verifying
  -- A place that was moved up has left its data there and looks like a pending one.
  let named := fun s : VerifyingSlot α => if bad s then s.hash facts else s.sha3Uncles facts
  ((badVerifying.map named).foldl (condemn facts) { q with verifying := kept },
    !badVerifying.isEmpty)

/-- One time around the loop that takes bad blocks out of the queues. -/
def sweep : BlockQueue α × Bool :=
  let (q, moreVerified) := q.sweepVerified facts
  let (q, moreUnverified) := q.sweepUnverified facts
  let (q, moreVerifying) := q.sweepVerifying facts
  (q, moreVerified || moreUnverified || moreVerifying)

/-- The loop, which goes on as long as there are any. -/
def sweepAll : ℕ → BlockQueue α → BlockQueue α
  | 0, q => q
  | fuel + 1, q =>
    let (q, moreBad) := q.sweep facts
    if moreBad then sweepAll fuel q else q

/-- Take out what descends from a bad block; no more rounds take any out than there are blocks. -/
def updateBad (bad : Hash) : BlockQueue α :=
  sweepAll facts (q.knownCount + 1) (q.collectUnknownBad facts bad)

end Bad

section Verifier

/-- Put a verified block with the others, unless its parent is bad. -/
def settle (b : α) : BlockQueue α :=
  if facts.parentHash b ∈ q.knownBad then
    { q with
      readySet := q.readySet.erase (facts.hash b)
      knownBad := insert (facts.hash b) q.knownBad }
  else { q with verified := q.verified ++ [b] }

/-- Settle the blocks at the front of the given places as far as they have been verified. -/
def drainSlots : List (VerifyingSlot α) → BlockQueue α → BlockQueue α
  | .done b :: rest, q => drainSlots rest (settle facts { q with verifying := rest } b)
  | _, q => q

/-- Settle the blocks that have been verified and that no other one is before. -/
def drainVerified : BlockQueue α := drainSlots facts q.verifying q

/-- Give the next unverified block to a verifier. -/
def takeWork : Option (α × BlockQueue α) :=
  match q.unverified with
  | [] => none
  | work :: rest =>
    some (work, { q with
      unverified := rest
      verifying := q.verifying ++ [.pending (facts.hash work) (facts.parentHash work)] })

/-- A verifier has found a block to be bad. -/
def rejectWork (work : α) : BlockQueue α :=
  drainVerified facts { q with
    readySet := q.readySet.erase (facts.hash work)
    knownBad := insert (facts.hash work) q.knownBad
    verifying := q.verifying.filter fun s => s.sha3Uncles facts ≠ facts.hash work }

/-- Put a block in the first place that has the given hash for its uncles. -/
def replace (h : Hash) (b : α) : List (VerifyingSlot α) → List (VerifyingSlot α)
  | [] => []
  | s :: rest => if s.sha3Uncles facts = h then .done b :: rest else s :: replace h b rest

/-- A verifier has verified a block. -/
def acceptWork (work : α) : BlockQueue α :=
  match q.verifying with
  | [] => q
  | s :: rest =>
    if s.sha3Uncles facts = facts.hash work then
      drainVerified facts (settle facts { q with verifying := rest } work)
    else { q with verifying := replace facts (facts.hash work) work q.verifying }

/-- A verifier is done with a block. -/
def finishWork (work : α) : BlockQueue α :=
  if facts.valid work then q.acceptWork facts work else q.rejectWork facts work

end Verifier

section Interface

/-- Whether the queue knows a block on its arrival. -/
def isKnown (h : Hash) : Bool :=
  h ∈ q.readySet ∨ h ∈ q.drainingSet ∨ h ∈ q.unknownSet ∨ h ∈ q.knownBad

/-- Whether a block is to come into the chain or is there. -/
def attached (chain : Finset Hash) (h : Hash) : Bool :=
  h ∈ q.readySet ∨ h ∈ q.drainingSet ∨ h ∈ chain

/-- A block arrives, from the network or from this node itself. -/
def importBlock (chain : Finset Hash) (b : α) (isOurs irreversible : Bool) (now : ℕ) :
    ImportResult × BlockQueue α :=
  let h := facts.hash b
  let parent := facts.parentHash b
  if q.isKnown h then (.alreadyKnown, q)
  else if !facts.wellFormed b then (.malformed, q)
  else if h ∈ chain then (.alreadyInChain, q)
  else if irreversible then (.irreversible, q)
  else if now < facts.timestamp b && !isOurs then
    (if q.attached chain parent then .futureTimeKnown else .futureTimeUnknown,
      { q with future := q.future ++ [b], futureSet := insert h q.futureSet })
  else if parent ∈ q.knownBad then
    (.badChain, updateBad facts { q with knownBad := insert h q.knownBad } h)
  else if !q.attached chain parent then
    (.unknownParent,
      { q with unknown := q.unknown ++ [b], unknownSet := insert h q.unknownSet })
  else
    (.success, noteReady facts
      { q with unverified := q.unverified ++ [b], readySet := insert h q.readySet } h)

/-- Hand out verified blocks, unless some are out. -/
def drain (max : ℕ) : List α × BlockQueue α :=
  if q.drainingSet = ∅ then
    let out := q.verified.take max
    (out, { q with
      verified := q.verified.drop max
      drainingSet := facts.hashes out
      readySet := q.readySet \ facts.hashes out })
  else ([], q)

/-- What was handed out has been imported, but for the bad blocks among it. -/
def doneDrain (bad : List Hash) : Bool × BlockQueue α :=
  let q := { q with drainingSet := ∅ }
  let q := bad.foldl (updateBad facts) { q with knownBad := q.knownBad ∪ bad.toFinset }
  (!decide (q.readySet = ∅), q)

/-- Take out the blocks whose time has come. -/
def tick (now : ℤ) : List α × BlockQueue α :=
  (q.future.filter fun b => facts.futureKey b ≤ now,
    { q with future := q.future.filter fun b => now < facts.futureKey b })

/-- Forget everything but the bad blocks. -/
def clear : BlockQueue α := { (empty : BlockQueue α) with knownBad := q.knownBad }

/-- Where the queue says that a block is. -/
def blockStatus (h : Hash) : QueueStatus :=
  if h ∈ q.readySet then .ready
  else if h ∈ q.drainingSet then .importing
  else if h ∈ q.unknownSet then .unknownParent
  else if h ∈ q.knownBad then .bad
  else if h ∈ q.futureSet then .future
  else .unknown

end Interface

end BlockQueue

/-- The block queue with the threads that use it. -/
structure BlockSystem (α : Type) where
  queue : BlockQueue α
  /-- The blocks that verifiers have taken and not returned. -/
  working : List α
  /-- The blocks that a tick has taken out and that are still noted as future ones. -/
  forgetting : List α
  /-- The blocks that a tick has still to import. -/
  returning : List α
  /-- The blocks that the chain knows. -/
  chain : Finset Hash
  /-- All blocks that were ever handed out, in that order. -/
  handed : List α
  /-- All blocks that ever became ready, in that order. -/
  became : List Hash

namespace BlockSystem

variable {α : Type} (facts : BlockFacts α)

/-- What a thread does while it holds the locks. -/
inductive Action (α : Type) where
  | importBlock (b : α) (isOurs irreversible : Bool) (now : ℕ)
  | takeWork
  | finishWork (i : ℕ)
  | drain (max : ℕ)
  | doneDrain (bad : List Hash)
  | tick (now : ℤ)
  | tickForget (i : ℕ)
  | tickImport (i : ℕ) (irreversible : Bool) (now : ℕ)
  | clear
  /-- The chain has taken a block that was handed out. -/
  | extend (i : ℕ)

/-- The system before its first block. -/
def start (chain : Finset Hash) : BlockSystem α where
  queue := .empty
  working := []
  forgetting := []
  returning := []
  chain := chain
  handed := []
  became := []

/-- A block arrives at the queue; the blocks that are ready by it are at the end of a queue. -/
def arrive (s : BlockSystem α) (b : α) (isOurs irreversible : Bool) (now : ℕ) : BlockSystem α :=
  let after := (s.queue.importBlock facts s.chain b isOurs irreversible now).2
  { s with
    queue := after
    became := s.became ++ (after.unverified.drop s.queue.unverified.length).map facts.hash }

/-- What an action does, if it can be taken. -/
def step : Action α → BlockSystem α → Option (BlockSystem α)
  | .importBlock b isOurs irreversible now, s => some (s.arrive facts b isOurs irreversible now)
  | .takeWork, s => do
    let (work, queue) ← s.queue.takeWork facts
    return { s with queue := queue, working := s.working ++ [work] }
  | .finishWork i, s => do
    let work ← s.working[i]?
    return { s with queue := s.queue.finishWork facts work, working := s.working.eraseIdx i }
  | .drain max, s =>
    let (out, queue) := s.queue.drain facts max
    some { s with queue := queue, handed := s.handed ++ out }
  | .doneDrain bad, s => some { s with queue := (s.queue.doneDrain facts bad).2 }
  | .tick now, s =>
    let (todo, queue) := s.queue.tick facts now
    some { s with queue := queue, forgetting := s.forgetting ++ todo }
  | .tickForget i, s => do
    let b ← s.forgetting[i]?
    return { s with
      queue := { s.queue with futureSet := s.queue.futureSet.erase (facts.hash b) }
      forgetting := s.forgetting.eraseIdx i
      returning := s.returning ++ [b] }
  | .tickImport i irreversible now, s => do
    let b ← s.returning[i]?
    return arrive facts { s with returning := s.returning.eraseIdx i } b false irreversible now
  | .clear, s => some { s with queue := s.queue.clear }
  | .extend i, s => do
    let b ← s.handed[i]?
    return { s with chain := insert (facts.hash b) s.chain }

end BlockSystem

end Etiam
