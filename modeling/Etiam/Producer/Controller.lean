import Etiam.Producer.Schedule
import Etiam.Vote.VoteInfo

/-! The chain controller: what applying one block does to the consensus database. -/

namespace Etiam

/-- What the chain controller reads of a block header. -/
structure BlockHeader where
  number : U256
  timestamp : U256
  hash : Hash
  parentHash : Hash
  producer : Address
  runningVersion : U32
  hardforkVersion : U32
  hardforkTime : U32
  verifySign : Bool
  deriving DecidableEq

namespace BlockHeader

/-- The number as the database keeps it. -/
def num (b : BlockHeader) : U32 := b.number.setWidth 32

/-- The time as the database keeps it. -/
def time (b : BlockHeader) : U32 := b.timestamp.setWidth 32

/-- A signed header that asks for no hardfork. -/
def signed (producer : Address) (number timestamp : ℕ) : BlockHeader where
  number := BitVec.ofNat 256 number
  timestamp := BitVec.ofNat 256 timestamp
  hash := BitVec.ofNat 256 number
  parentHash := BitVec.ofNat 256 (number - 1)
  producer
  runningVersion := 0
  hardforkVersion := 0
  hardforkTime := 0
  verifySign := true

end BlockHeader

/-- A proof of work as it was stored by a worker. -/
structure PowOperation where
  worker : Address
  blockId : Hash
  work : Hash
  deriving DecidableEq

/-- What the chain controller reads of the state after a block's parent. -/
structure ParentView where
  votes : Std.ExtTreeMap Address VoteInfo
  powOps : List PowOperation

/-- The chain controller: its database, what it keeps in memory, and the chain it asks for hashes.
-/
structure Controller where
  db : Database
  allVotes : Std.ExtTreeMap Address U64
  lastIrreversibleBlockNum : U32
  lastIrreversibleBlockHash : Hash := 0
  numberHash : U32 → Hash := fun _ => 0

/-- A generator of random numbers, known by its seed. -/
structure Random where
  seed : U64

namespace Random

/-- The next random number. -/
def next (rng : Random) : U64 × Random :=
  let seed := rng.seed + 0x9E3779B97F4A7C15
  let z := (seed ^^^ (seed >>> 30)) * 0xBF58476D1CE4E5B9
  let z := (z ^^^ (z >>> 27)) * 0x94D049BB133111EB
  (z ^^^ (z >>> 31), ⟨seed⟩)

/-- Swap two entries of a list. -/
def swap (xs : List Address) (i j : ℕ) : List Address :=
  (xs.set i (xs.getD j 0)).set j (xs.getD i 0)

/-- Shuffle the first entries of a list, from the last of them to the second. -/
def shuffle : ℕ → Random → List Address → List Address
  | 0, _, xs => xs
  | 1, _, xs => xs
  | count + 2, rng, xs =>
    let (value, rng) := rng.next
    shuffle (count + 1) rng (swap xs (value.toNat % (count + 2)) (count + 1))

end Random

namespace Database

variable (db : Database)

/-- The time at which a slot after the head block starts. -/
def getSlotTime (slot : U32) : U32 :=
  if slot = 0 then 0
  else
    let interval := BitVec.ofNat 32 Config.blockIntervalSeconds
    if db.dynamic.headBlockNumber = 0 then db.dynamic.time + slot * interval
    else db.dynamic.time / interval * interval + slot * interval

/-- The slot after the head block in which a time lies, zero for a time before the first. -/
def getSlotAtTime (time : U32) : U32 :=
  let first := db.getSlotTime 1
  if time < first then 0
  else (time - first) / BitVec.ofNat 32 Config.blockIntervalSeconds + 1

/-- The producer whose turn a slot after the head block is. -/
def getScheduledProducer (slot : U32) : Address :=
  let currentAslot := db.dynamic.currentAbsoluteSlot + slot.setWidth 64
  db.global.activeProducers.get
    ⟨currentAslot.toNat % Config.totalProducersPerRound, Nat.mod_lt _ (by decide)⟩

end Database

namespace Controller

open Database Exec

/-- Accept a header that is signed by the producer whose turn it is. -/
def validateBlockHeader (b : BlockHeader) : DbM Unit := do
  if !b.verifySign then throw .invalidSignature
  let db ← get
  if db.getScheduledProducer (db.getSlotAtTime b.time) ≠ b.producer then throw .invalidProducer
  let _ ← onProducers (Index.get b.producer)

/-- A header passes exactly if it is signed, its producer's turn has come and the producer is known;
nothing is changed. -/
theorem validateBlockHeader_eq_ok {db db' : Database} {b : BlockHeader} :
    (validateBlockHeader b).run db = .ok () db' ↔
      b.verifySign = true ∧ db.getScheduledProducer (db.getSlotAtTime b.time) = b.producer ∧
        db.producers.find b.producer ≠ none ∧ db' = db := by
  unfold validateBlockHeader
  cases sign : b.verifySign with
  | false =>
    refine ⟨fun ran => ?_, fun facts => ?_⟩
    · cases ran
    · cases facts.1
  | true =>
    change (get >>= _ : DbM Unit).run db = _ ↔ _
    rw [run_get_bind]
    by_cases turn : db.getScheduledProducer (db.getSlotAtTime b.time) = b.producer
    · rw [if_neg (not_not.mpr turn)]
      cases found : db.producers.find b.producer with
      | none =>
        have failed : (onProducers (Index.get b.producer)).run db = .error .outOfRange db :=
          zoom_error (Index.run_get_none found)
        rw [bind_error failed]
        exact ⟨nofun, fun facts => absurd rfl facts.2.2.1⟩
      | some producer =>
        have read : (onProducers (Index.get b.producer)).run db = .ok producer db :=
          zoom_ok (Index.run_get found)
        rw [bind_ok read]
        refine ⟨fun ran => ?_, fun facts => ?_⟩
        · cases ran
          exact ⟨rfl, turn, Option.some_ne_none _, rfl⟩
        · rw [facts.2.2.2]
          rfl
    · rw [if_pos turn]
      exact ⟨nofun, fun facts => absurd facts.2.1 turn⟩

/-- Take note of the version a producer runs and of its vote on hardforks. -/
def processBlockHeader (b : BlockHeader) : DbM Unit := do
  let producer ← onProducers (Index.get b.producer)
  if b.runningVersion ≠ producer.runningVersion then
    modifyProducer b.producer fun p => { p with runningVersion := b.runningVersion }
  if b.hardforkVersion ≠ producer.hardforkVerVote ∨ b.hardforkTime ≠ producer.hardforkTimeVote then
    modifyProducer b.producer fun p =>
      { p with hardforkVerVote := b.hardforkVersion, hardforkTimeVote := b.hardforkTime }
  let db ← get
  if b.runningVersion < db.global.currentHardforkVersion then throw .invalidRunningVersion

/-- The bound below which a work counts, which falls as the queue grows. -/
def getPowTarget (db : Database) : Hash :=
  BitVec.allOnes 256 >>> (db.dynamic.numPowWitnesses.toNat / 4 + 4)

/-- Queue one worker for its proof of work, unless it is stale, weak or not needed. -/
def admitWorker (lastBlockId target : Hash) (op : PowOperation) : DbM Unit := do
  let db ← get
  if op.blockId ≠ lastBlockId then return
  if target ≤ op.work then return
  if (db.producerVotes.find op.worker).isSome then return
  match db.producers.find op.worker with
  | some producer =>
    if producer.powWorker ≠ 0 then return
    modifyDynamic fun d =>
      { d with totalPow := d.totalPow + 1, numPowWitnesses := d.numPowWitnesses + 1 }
    let db ← get
    modifyProducer op.worker fun p => { p with powWorker := db.dynamic.totalPow }
  | none =>
    modifyDynamic fun d =>
      { d with totalPow := d.totalPow + 1, numPowWitnesses := d.numPowWitnesses + 1 }
    let db ← get
    onProducers (Index.create op.worker (.ok { powWorker := db.dynamic.totalPow }))

/-- Queue the workers whose proof of work is for the block that is taken to be the last. -/
def updatePow (lastBlockId : Hash) (powOps : List PowOperation) : DbM Unit := do
  let target := getPowTarget (← get)
  powOps.forM (admitWorker lastBlockId target)

/-- Run a program on the database. -/
def onDb {α : Type} (x : DbM α) : EStateM Failure Controller α :=
  Exec.zoom db (fun db c => { c with db }) x

/-- Set the votes that are remembered of a candidate. -/
def remember (a : Address) (votes : U64) : EStateM Failure Controller Unit :=
  modify fun c => { c with allVotes := c.allVotes.insert a votes }

/-- Register a candidate that is seen for the first time. -/
def enlist (a : Address) : DbM Unit := do
  let db ← get
  onVotes (Index.create a (Race.startNewRaceLap db.currentRaceTime.value .start))
  match db.producers.find a with
  | none => onProducers (Index.create a (.ok {}))
  | some producer =>
    -- No account is a voted producer and a worker at the same time.
    if producer.powWorker ≠ 0 then Schedule.leavePow a

/-- Bring the race up to date with one account of the vote table. -/
def followCandidate (a : Address) (info : VoteInfo) : EStateM Failure Controller Unit := do
  if !info.isCandidate then return
  let c ← get
  match c.allVotes[a]? with
  | some known =>
    if info.receivedVote - known = 0 then return
    onDb (onVotes (Index.change a
      (Race.updateVotes (info.receivedVote - known) c.db.currentRaceTime.value)))
    remember a info.receivedVote
  | none =>
    onDb (enlist a)
    remember a info.receivedVote

/-- Forget a candidate that has left the vote table. -/
def forget (a : Address) : EStateM Failure Controller Unit := do
  onDb (onVotes (Index.delete a))
  modify fun c => { c with allVotes := c.allVotes.erase a }

/-- Bring the race up to date with the vote table of the parent's state. -/
def updatePvomiPerblock (allProducers : Std.ExtTreeMap Address VoteInfo) :
    EStateM Failure Controller Unit := do
  allProducers.toList.forM fun entry => followCandidate entry.1 entry.2
  let c ← get
  (c.allVotes.filter fun a _ => a ∉ allProducers).keys.forM forget

/-- Count the slots that passed without a block against the producers whose turn they were. -/
def countMissed (b : BlockHeader) (missed : ℕ) : DbM Unit :=
  (List.range missed).forM fun i => do
    let db ← get
    let name := db.getScheduledProducer (BitVec.ofNat 32 (i + 1))
    if name ≠ 0 then
      let _ ← onProducers (Index.get name)
      if name ≠ b.producer then
        modifyProducer name fun p => { p with totalMissed := p.totalMissed + 1 }

/-- The slots passed without a block, as the 32-bit difference that the code takes. -/
def missedBlocks (db : Database) (b : BlockHeader) : U32 :=
  (if db.dynamic.headBlockNumber = 0 then 1 else db.getSlotAtTime b.time) - 1

/-- The bitmap of recent slots after a block and the slots before it that were missed. -/
def shiftSlots (filled : U64) (missed : U32) : U64 :=
  if missed.toNat < 64 then (filled <<< 1 + 1) <<< missed.toNat else 0

/-- What every block changes, with the block as the new head. -/
def setHead (b : BlockHeader) (missed : U32) (d : DynamicGlobalPropertyObject) :
    DynamicGlobalPropertyObject :=
  { d with
    headBlockNumber := b.num
    headBlockId := b.hash
    time := b.time
    currentAbsoluteSlot := d.currentAbsoluteSlot + (missed + 1).setWidth 64
    recentSlotsFilled := shiftSlots d.recentSlotsFilled missed }

/-- Make the block the head of the database. -/
def updateGlobalDynamicData (b : BlockHeader) : DbM Unit := do
  let missed := missedBlocks (← get) b
  countMissed b missed.toNat
  modifyDynamic (setHead b missed)

/-- The hardfork that the producers of the round ask for: the latest with enough votes. -/
def majorityHardfork (votes : List (U32 × U32)) : Option (U32 × U32) :=
  (votes.insertionSort fun p q => q.1 < p.1 ∨ (p.1 = q.1 ∧ q.2 ≤ p.2)).find?
    fun vote => Config.etiHardforkRequiredProducers ≤ votes.count vote

/-- The objects of the producers of the round, leaving out the empty places. -/
def activeProducerObjects (names : List Address) : DbM (List ProducerObject) :=
  (names.filter (· ≠ 0)).mapM fun name => onProducers (Index.get name)

/-- Count the votes of the producers of the round on the next hardfork. -/
def updateHardforkVotes : DbM Unit := do
  let producers ← activeProducerObjects (← get).global.activeProducers.toList
  match majorityHardfork (producers.map fun p => (p.hardforkVerVote, p.hardforkTimeVote)) with
  | some (version, time) =>
    modifyGlobal fun g => { g with nextHardfork := version, nextHardforkTime := time }
  | none => modifyGlobal fun g => { g with nextHardfork := g.currentHardforkVersion }

/-- Choose the producers of the next round and shuffle them by the time of the block. -/
def calculateNextRound (b : BlockHeader) : DbM (List Address) := do
  let schedule ← Schedule.calculateNextRound
  return Random.shuffle schedule.length ⟨b.timestamp.setWidth 64⟩ schedule

/-- Make a list of names the producers of the round. -/
def setActiveProducers (schedule : List Address) (g : GlobalPropertyObject) :
    GlobalPropertyObject :=
  { g with
    activeProducers := Vector.ofFn fun i => schedule.getD i.val (g.activeProducers.get i) }

/-- At the end of a round, set the producers of the next one. -/
def updateGlobalProperties (b : BlockHeader) : DbM Unit := do
  if b.num.toNat % Config.totalProducersPerRound = 0 then
    -- Whatever goes wrong is swallowed, and what was changed before it stays.
    tryCatch
      (do
        let schedule ← calculateNextRound b
        updateHardforkVotes
        modifyGlobal (setActiveProducers schedule))
      fun _ => return

/-- Take note of the block that a producer signed. -/
def updateSigningProducer (b : BlockHeader) : DbM Unit := do
  let db ← get
  let newBlockAslot := db.dynamic.currentAbsoluteSlot + (db.getSlotAtTime b.time).setWidth 64
  modifyProducer b.producer fun p =>
    { p with lastAslot := newBlockAslot, lastConfirmedBlockNum := b.num }

/-- The block that the given share of the producers of the round has confirmed. -/
def confirmedByMost (confirmed : List U32) : Option U32 :=
  let offset := confirmed.length *
    (Config.percent100 - Config.irreversibleThresholdPercent) / Config.percent100
  (confirmed.insertionSort (· ≤ ·))[offset]?

/-- Advance the last irreversible block and drop the undo history up to it. -/
def updateLastIrreversibleBlock : EStateM Failure Controller Unit := do
  let producers ← onDb (do activeProducerObjects (← get).global.activeProducers.toList)
  match confirmedByMost (producers.map (·.lastConfirmedBlockNum)) with
  | none => throw .undefinedBehaviour
  | some newLast =>
    let c ← get
    if c.db.dynamic.lastIrreversibleBlockNum < newLast then
      onDb (modifyDynamic fun d => { d with lastIrreversibleBlockNum := newLast })
      modify fun c =>
        { c with
          lastIrreversibleBlockNum := newLast
          lastIrreversibleBlockHash := c.numberHash newLast }
    onDb (modify fun db => db.commit newLast.toNat)

/-- The versions of the hardforks that this version knows, by their numbers. -/
def hardforkVersions : List U32 := [0]

/-- Switch to a hardfork, which has to be the one that follows the last. -/
def applyHardfork (hardfork : ℕ) : DbM Unit := do
  let db ← get
  if hardfork ≠ db.global.lastHardfork + 1 then throw .hardforkApplyOutOfOrder
  modifyGlobal fun g =>
    { g with
      lastHardfork := hardfork
      currentHardforkVersion := hardforkVersions.getD hardfork 0 }

/-- Apply the hardforks that are due one after another, and refuse to go on past one that this
version does not know. -/
def processHardforksLoop : ℕ → DbM Unit
  | 0 => pure ()
  | rounds + 1 => do
    let db ← get
    if hardforkVersions.getD db.global.lastHardfork 0 < db.global.nextHardfork ∧
        db.global.nextHardforkTime ≤ db.dynamic.time then
      if db.global.lastHardfork < Config.etiHardforkNum then
        applyHardfork (db.global.lastHardfork + 1)
        processHardforksLoop rounds
      else throw .unknownHardfork

/-- Process the hardforks that are due; no round is needed after the last one known. -/
def processHardforks : DbM Unit := processHardforksLoop (Config.etiHardforkNum + 1)

/-- As no hardfork is known but the first, the loop ends in its first round, however many it has. -/
theorem processHardforksLoop_succ (rounds : ℕ) : processHardforksLoop (rounds + 1) = (do
    let db ← get
    if 0 < db.global.nextHardfork ∧ db.global.nextHardforkTime ≤ db.dynamic.time then
      throw .unknownHardfork) := by
  have first : ∀ n, hardforkVersions.getD n 0 = 0 := fun n => by cases n <;> rfl
  have none_left : ∀ n, ¬ n < Config.etiHardforkNum := fun n => Nat.not_lt_zero n
  unfold processHardforksLoop
  simp only [first, none_left, if_false]

/-- What applying a block does until the race is up to date. -/
def openBlock (lastBlockId : Hash) (view : ParentView) (b : BlockHeader) :
    EStateM Failure Controller Unit := do
  onDb (validateBlockHeader b)
  onDb (processBlockHeader b)
  onDb (updatePow lastBlockId view.powOps)
  updatePvomiPerblock view.votes

/-- What applying a block does once the producers of the round are set. -/
def confirmBlock (b : BlockHeader) : EStateM Failure Controller Unit := do
  onDb (updateSigningProducer b)
  updateLastIrreversibleBlock
  onDb processHardforks

/-- Apply a block, given the parent hash of the chain's head and the state after the parent. -/
def applyBlock (lastBlockId : Hash) (view : ParentView) (b : BlockHeader) :
    EStateM Failure Controller Unit := do
  openBlock lastBlockId view b
  onDb (updateGlobalDynamicData b)
  onDb (updateGlobalProperties b)
  confirmBlock b

/-- Apply a block in a session of its own, which is undone when the block is refused. -/
def pushBlock (lastBlockId : Hash) (view : ParentView) (b : BlockHeader) :
    EStateM Failure Controller Unit := fun c =>
  match applyBlock lastBlockId view b { c with db := c.db.startUndoSession } with
  | .ok _ c => .ok () c
  | .error e c =>
    match c.db.undo with
    | some db => .error e { c with db }
    | none => .error .undefinedBehaviour c

/-- Rebuild the remembered votes from the state after the parent of a header. -/
def initAllvotes (number : U256) (votes : Std.ExtTreeMap Address VoteInfo) (c : Controller) :
    Controller :=
  { c with allVotes := if number = 0 then ∅ else votes.map fun _ info => info.receivedVote }

/-- Create the objects of a producer that is there from the start. -/
def addGenesisProducer (db : Database) (a : Address) : Option Database := do
  let producers ← db.producers.emplace a {}
  let producerVotes ← db.producerVotes.emplace a .start
  return { db with producers, producerVotes }

/-- The producers of the first round. -/
def genesisActive (initialProducers : List Address) :
    Vector Address Config.totalProducersPerRound :=
  Vector.ofFn fun i => initialProducers.getD i.val 0

/-- The database before the first block, without producers. -/
def genesisDatabase (initialProducers : List Address) : Database where
  globalProperties := ⟨{ activeProducers := genesisActive initialProducers }, 0, []⟩
  dynamicGlobalProperties :=
    ⟨{ time := 1513580324, recentSlotsFilled := BitVec.allOnes 64 }, 0, []⟩
  currentRaceTime := ⟨0, 0, []⟩
  producerVotes := .empty
  producers := .empty

/-- The producers that are there from the start. -/
def genesisProducers (initialProducers : List Address) : List Address :=
  (genesisActive initialProducers).toList.filter (· ≠ 0)

/-- The chain controller before the first block, if no initial producer is named twice. -/
def initializeChain (initialProducers : List Address) : Option Controller := do
  let db ← (genesisProducers initialProducers).foldlM addGenesisProducer
    (genesisDatabase initialProducers)
  return { db, allVotes := ∅, lastIrreversibleBlockNum := 0 }

/-- A block as it is applied: its header, the state after its parent, and the head's parent. -/
structure Applied where
  lastBlockId : Hash
  view : ParentView
  header : BlockHeader

/-- A block that follows a vote table, with nobody working. -/
def Applied.signed (producer : Address) (number timestamp : ℕ)
    (votes : Std.ExtTreeMap Address VoteInfo) : Applied where
  lastBlockId := BitVec.ofNat 256 (number - 2)
  view := { votes, powOps := [] }
  header := .signed producer number timestamp

/-- Apply one block, if it is accepted. -/
def accept (c : Controller) (block : Applied) : Option Controller :=
  match (pushBlock block.lastBlockId block.view block.header).run c with
  | .ok _ d => some d
  | .error _ _ => none

/-- Apply blocks one after another, as long as they are accepted. -/
def acceptAll (c : Controller) (blocks : List Applied) : Option Controller :=
  blocks.foldlM accept c

/-- Apply blocks one after another from the start of the chain. -/
def replay (initialProducers : List Address) (blocks : List Applied) : Option Controller := do
  let start ← initializeChain initialProducers
  start.acceptAll blocks

section Genesis

variable {a : Address} {names : List Address} {db db' : Database}

theorem addGenesisProducer_eq_some (added : addGenesisProducer db a = some db') :
    ∃ producers votes, db.producers.emplace a {} = some producers ∧
      db.producerVotes.emplace a .start = some votes ∧
      db' = { db with producers, producerVotes := votes } := by
  obtain ⟨producers, created, rest⟩ := Option.bind_eq_some_iff.mp added
  obtain ⟨votes, placed, made⟩ := Option.bind_eq_some_iff.mp rest
  exact ⟨producers, votes, created, placed, (Option.some.inj made).symm⟩

variable (added : names.foldlM addGenesisProducer db = some db')

include added

theorem frame_addGenesisProducers :
    db' = { db with producers := db'.producers, producerVotes := db'.producerVotes } := by
  induction names generalizing db with
  | nil =>
    cases added
    rfl
  | cons a rest ih =>
    obtain ⟨next, first, others⟩ := Option.bind_eq_some_iff.mp added
    obtain ⟨producers, votes, -, -, rfl⟩ := addGenesisProducer_eq_some first
    have same := ih others
    exact same

/-- The producers added at the start are in the race, without votes, and nothing is noted of
them. -/
theorem find_addGenesisProducers (a : Address) :
    db'.producerVotes.find a = (if a ∈ names then some .start else db.producerVotes.find a) ∧
      db'.producers.find a = if a ∈ names then some {} else db.producers.find a := by
  induction names generalizing db with
  | nil =>
    cases added
    simp
  | cons b rest ih =>
    obtain ⟨next, first, others⟩ := Option.bind_eq_some_iff.mp added
    obtain ⟨producers, votes, created, placed, rfl⟩ := addGenesisProducer_eq_some first
    rw [(ih others).1, (ih others).2, Index.find_emplace placed, Index.find_emplace created]
    by_cases own : b = a
    · simp [own]
    · simp [own, Ne.symm own]

theorem nodup_addGenesisProducers : names.Nodup ∧ ∀ a ∈ names, db.producers.find a = none := by
  induction names generalizing db with
  | nil => exact ⟨List.nodup_nil, by simp⟩
  | cons b rest ih =>
    obtain ⟨next, first, others⟩ := Option.bind_eq_some_iff.mp added
    obtain ⟨producers, votes, created, -, rfl⟩ := addGenesisProducer_eq_some first
    obtain ⟨different, absent⟩ := ih others
    have vacant := (Index.emplace_eq_some_iff db.producers b {}).mp ⟨producers, created⟩
    refine ⟨different.cons fun member => ?_, fun a member => ?_⟩
    · -- The first name is taken once it has been added.
      have taken := (Index.find_emplace created b).symm.trans (absent b member)
      rw [if_pos rfl] at taken
      cases taken
    · rcases List.mem_cons.mp member with rfl | later
      · exact vacant
      · have none_after := (Index.find_emplace created a).symm.trans (absent a later)
        split at none_after
        · cases none_after
        · exact none_after

end Genesis

variable {initialProducers : List Address} {c : Controller} {block : Applied}
  {blocks : List Applied}

section

variable (started : initializeChain initialProducers = some c)

include started

theorem frame_initializeChain :
    c.db = { genesisDatabase initialProducers with
      producers := c.db.producers, producerVotes := c.db.producerVotes } := by
  simp only [initializeChain, Option.bind_eq_bind, Option.bind_eq_some_iff] at started
  obtain ⟨db, added, made⟩ := started
  cases made
  exact frame_addGenesisProducers added

theorem dynamic_initializeChain : c.db.dynamic = (genesisDatabase initialProducers).dynamic :=
  (congrArg Database.dynamic (frame_initializeChain started)).trans rfl

theorem find_initializeChain (a : Address) :
    c.db.producerVotes.find a = (if a ∈ genesisProducers initialProducers then some .start
      else none) ∧
    c.db.producers.find a = if a ∈ genesisProducers initialProducers then some {} else none := by
  simp only [initializeChain, Option.bind_eq_bind, Option.bind_eq_some_iff] at started
  obtain ⟨db, added, made⟩ := started
  cases made
  exact find_addGenesisProducers added a

theorem nodup_genesisProducers : (genesisProducers initialProducers).Nodup := by
  simp only [initializeChain, Option.bind_eq_bind, Option.bind_eq_some_iff] at started
  obtain ⟨db, added, -⟩ := started
  exact (nodup_addGenesisProducers added).1

theorem global_initializeChain : c.db.global = (genesisDatabase initialProducers).global :=
  (congrArg Database.global (frame_initializeChain started)).trans rfl

theorem allVotes_initializeChain : c.allVotes = ∅ := by
  simp only [initializeChain, Option.bind_eq_bind, Option.bind_eq_some_iff] at started
  obtain ⟨db, -, made⟩ := started
  cases made
  rfl

end

theorem accept_eq_some {d : Controller} :
    c.accept block = some d ↔ (applyBlock block.lastBlockId block.view block.header).run
      { c with db := c.db.startUndoSession } = .ok () d := by
  unfold accept pushBlock
  simp only [EStateM.run]
  cases applyBlock block.lastBlockId block.view block.header
      { c with db := c.db.startUndoSession } with
  | ok u e => simp
  | error e m =>
    -- Whether or not the session can be undone, the block is refused.
    cases undone : m.db.undo with
    | none => simp [undone]
    | some db => simp [undone]

theorem accept_eq_none {m : Controller} {e : Failure}
    (failed : (applyBlock block.lastBlockId block.view block.header).run
      { c with db := c.db.startUndoSession } = .error e m) : c.accept block = none := by
  rw [Option.eq_none_iff_forall_ne_some]
  intro d accepted
  rw [accept_eq_some.mp accepted] at failed
  cases failed

theorem replay_nil (initialProducers : List Address) :
    replay initialProducers [] = initializeChain initialProducers := by
  simp [replay, acceptAll]

theorem replay_concat {d : Controller} : replay initialProducers (blocks ++ [block]) = some d ↔
      ∃ c, replay initialProducers blocks = some c ∧ c.accept block = some d := by
  simp only [replay, acceptAll, List.foldlM_append, List.foldlM_cons, List.foldlM_nil,
    Option.bind_eq_bind,
    Option.bind_eq_some_iff, Option.pure_def, Option.some.injEq, exists_eq_right]
  constructor
  · rintro ⟨start, began, c, folded, accepted⟩
    exact ⟨c, ⟨start, began, folded⟩, accepted⟩
  · rintro ⟨c, ⟨start, began, folded⟩, accepted⟩
    exact ⟨start, began, c, folded, accepted⟩

/-- A block is applied on a state in the course of a run. -/
def Applies (initialProducers : List Address) (blocks : List Applied) (c : Controller)
    (block : Applied) : Prop :=
  ∃ earlier later, blocks = earlier ++ block :: later ∧ replay initialProducers earlier = some c

theorem Applies.append (applies : Applies initialProducers blocks c block) (more : List Applied) :
    Applies initialProducers (blocks ++ more) c block := by
  obtain ⟨earlier, later, split, replayed⟩ := applies
  exact ⟨earlier, later ++ more, by simp [split], replayed⟩

theorem applies_concat (replayed : replay initialProducers blocks = some c) (block : Applied) :
    Applies initialProducers (blocks ++ [block]) c block :=
  ⟨blocks, [], rfl, replayed⟩

end Controller

end Etiam
