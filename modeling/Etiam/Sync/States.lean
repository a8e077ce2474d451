import Etiam.Sync.BlockChainSync

/-! Which state the sync notes and which one handles its events, over every run of events. -/

namespace Etiam

namespace BlockChainSync

variable {β : Type} {facts : BodyFacts β} {host : SyncHost β} {s t : BlockChainSync β}

section Frames

-- Two states that are the same once their downloads are forgotten differ in nothing else.

/-- Forgetting the downloads twice is forgetting them once. -/
@[simp] theorem reset_reset : s.resetSyncTempData.resetSyncTempData = s.resetSyncTempData := rfl

/-- The marks of a peer belong to the downloads. -/
@[simp] theorem reset_clearPeerDownload (peer : Peer) :
    (s.clearPeerDownload peer).resetSyncTempData = s.resetSyncTempData := rfl

/-- So does a header that is stored. -/
@[simp] theorem reset_storeHeader (h : SyncHeader) :
    (s.storeHeader facts h).resetSyncTempData = s.resetSyncTempData := by
  unfold storeHeader
  split <;> rfl

/-- A request for headers changes nothing but the marks. -/
theorem requestHeaders_marks {peer : Peer} {fuel start : ℕ} {next : List (ℕ × List SyncHeader)}
    {answer : Option SyncRequest × BlockChainSync β}
    (ended : s.requestHeaders peer fuel start next = some answer) :
    ∃ marks peers, answer.2 = { s with downloadingHeaders := marks, headerSyncPeers := peers } := by
  fun_induction requestHeaders s peer fuel start next with
  | case1 =>
    cases ended
    exact ⟨_, _, rfl⟩
  | case2 => cases ended
  | case3 =>
    cases ended
    exact ⟨_, _, rfl⟩
  | case4 _ _ _ _ _ _ _ _ _ _ ih => exact ih ended
  | case5 _ _ _ _ _ _ _ _ _ _ ih => exact ih ended

/-- Neither does the part of it that is asked for. -/
theorem headerPart_marks (peer : Peer) : ∃ marks peers,
    ((s.headerPart peer s.headerRounds).getD (none, s)).2 =
      { s with downloadingHeaders := marks, headerSyncPeers := peers } := by
  cases ended : s.headerPart peer s.headerRounds with
  | none => exact ⟨_, _, rfl⟩
  | some answer =>
    unfold headerPart at ended
    split at ended
    · split at ended
      · exact requestHeaders_marks ended
      · exact requestHeaders_marks ended
    · cases ended
      exact ⟨_, _, rfl⟩

/-- Asking a peer changes the downloads only. -/
@[simp] theorem reset_syncHeadersAndBodiesFrom (peer : Peer) :
    (s.syncHeadersAndBodiesFrom peer).2.resetSyncTempData = s.resetSyncTempData := by
  unfold syncHeadersAndBodiesFrom
  simp only
  split
  · rfl
  · obtain ⟨marks, peers, same⟩ := s.headerPart_marks peer
    rw [same]
    rfl

/-- So does checking a header. -/
@[simp] theorem reset_checkHeader (h : SyncHeader) :
    (s.checkHeader h).2.resetSyncTempData = s.resetSyncTempData := by
  unfold checkHeader
  simp only
  split
  · rfl
  · split <;> rfl

variable (facts s) in
/-- So does storing headers. -/
@[simp] theorem reset_storeHeaders (items : List SyncHeader) :
    (s.storeHeaders facts items).2.resetSyncTempData = s.resetSyncTempData := by
  induction items generalizing s with
  | nil => rfl
  | cons h rest ih =>
    rw [storeHeaders]
    split
    · exact ih s
    · have frame := reset_checkHeader (s := s) h
      split
      · rename_i failed
        rwa [failed] at frame
      · rename_i checked
        rw [checked] at frame
        exact (ih _).trans ((reset_storeHeader h).trans frame)

/-- So does storing a body. -/
@[simp] theorem reset_storeBody (body : β) :
    (s.storeBody facts body).resetSyncTempData = s.resetSyncTempData := by
  unfold storeBody
  split
  · rfl
  · split <;> rfl

variable (facts s) in
/-- So does storing bodies. -/
@[simp] theorem reset_storeBodies (items : List (Option β)) :
    (s.storeBodies facts items).2.resetSyncTempData = s.resetSyncTempData := by
  induction items generalizing s with
  | nil => rfl
  | cons item rest ih =>
    cases item with
    | none => rfl
    | some body => exact (ih _).trans (reset_storeBody body)

variable (host s) in
/-- Importing blocks moves where the sync starts. -/
theorem reset_importBlocks (first i : ℕ) (blocks : List (SyncHeader × β)) :
    ∃ number hash, (importBlocks host first i blocks s).2.2.resetSyncTempData =
      s.resetSyncTempData.setStart number hash := by
  induction blocks generalizing s i with
  | nil => exact ⟨s.syncStartBlock, s.syncStartBlockHash, rfl⟩
  | cons block rest ih =>
    rw [importBlocks]
    split
    · exact ih _ _
    · exact ih _ _
    · exact ⟨s.syncStartBlock, s.syncStartBlockHash, rfl⟩
    · exact ⟨s.syncStartBlock, s.syncStartBlockHash, rfl⟩

variable (host s) in
/-- Putting blocks together moves where the sync starts. -/
theorem reset_collectBlocks : ∃ number hash, (s.collectBlocks host).2.resetSyncTempData =
    s.resetSyncTempData.setStart number hash := by
  unfold collectBlocks
  split
  · rename_i first headers _ _ bodies _ _ _
    split
    · exact ⟨s.syncStartBlock, s.syncStartBlockHash, rfl⟩
    · obtain ⟨number, hash, frame⟩ :=
        reset_importBlocks host s first 0 (headers.zip bodies)
      refine ⟨number, hash, ?_⟩
      split
      · rename_i ended
        rwa [ended] at frame
      · rename_i ended
        rw [ended] at frame
        split <;> exact frame
  · exact ⟨s.syncStartBlock, s.syncStartBlockHash, rfl⟩

end Frames

section Moves

/-- What events may do while a sync goes on, by one change after another: to the downloads, to where
the search is, to the idle state and to the one that downloads blocks. -/
inductive Moves : BlockChainSync β → BlockChainSync β → Prop where
  | downloads {s t : BlockChainSync β} (frame : t.resetSyncTempData = s.resetSyncTempData) :
      Moves s t
  | search (s : BlockChainSync β) (number expected unexpected : ℕ) (hash expectedHash : Hash) :
      Moves s { s with
        syncStartBlock := number
        syncStartBlockHash := hash
        expectBlockForFindingCommon := expected
        expectBlockHashForFindingCommon := expectedHash
        unexpectTimes := unexpected }
  | idle (s : BlockChainSync β) : Moves s (s.enter .idle)
  | syncBlocks (s : BlockChainSync β) :
      Moves s { s with state := .syncBlocks, currState := .syncBlocks }
  | trans {s t u : BlockChainSync β} (first : Moves s t) (second : Moves t u) : Moves s u

/-- Nothing has to change. -/
theorem Moves.refl (s : BlockChainSync β) : Moves s s := .downloads rfl

variable (facts host s)

/-- Asking for more is within what events may do. -/
theorem moves_syncHeadersAndBodies : Moves s (s.syncHeadersAndBodies host) := by
  unfold syncHeadersAndBodies
  split
  · exact .trans (.downloads reset_reset) (.idle _)
  · split
    · exact .refl s
    · rename_i peer _
      refine .trans (.downloads (reset_clearPeerDownload peer)) ?_
      simp only
      split
      · exact .trans (.downloads reset_reset) (.idle _)
      · exact .downloads (reset_syncHeadersAndBodiesFrom peer)

/-- So is going idle. -/
theorem moves_idle : Moves s (s.switchState host .idle) := .idle s

/-- So is turning to the download of blocks. -/
theorem moves_syncBlocks : Moves s (s.switchState host .syncBlocks) := by
  unfold switchState
  split
  · exact .trans (.syncBlocks s) (moves_syncHeadersAndBodies host _)
  · rename_i same
    have noted : s.state = .syncBlocks := by simpa using same
    unfold enter
    rw [if_pos noted]
    exact .refl s

/-- So is noticing that time is up. -/
theorem moves_updateTimeout : Moves s (s.updateTimeout host).2 := by
  unfold updateTimeout
  split
  · exact moves_idle host s
  · exact .refl s

/-- So is going on with the search. -/
theorem moves_findingContinueSync : Moves s (s.findingContinueSync host) := by
  unfold findingContinueSync
  split
  · exact .refl s
  · exact .downloads (reset_clearPeerDownload _)

/-- So is keeping the search alive. -/
theorem moves_findingKeepAlive : Moves s (s.findingKeepAlive host) := by
  unfold findingKeepAlive
  split
  · exact moves_findingContinueSync host s
  · exact .refl s

/-- So is keeping the download alive. -/
theorem moves_syncKeepAlive : Moves s (s.syncKeepAlive host) := by
  unfold syncKeepAlive
  split
  · exact moves_syncHeadersAndBodies host s
  · exact .refl s

/-- So is moving the start. -/
theorem moves_setStart (number : ℕ) (hash : Hash) : Moves s (s.setStart number hash) :=
  .search s number s.expectBlockForFindingCommon s.unexpectTimes hash
    s.expectBlockHashForFindingCommon

/-- So is what the search does with the expected header. -/
theorem moves_findingOnExpected (h : SyncHeader) : Moves s (s.findingOnExpected facts host h) := by
  have stored : Moves s (s.storeHeader facts h) := .downloads (reset_storeHeader h)
  unfold findingOnExpected
  simp only
  split_ifs
  · exact moves_idle host s
  · exact moves_findingContinueSync host s
  · exact .trans (moves_setStart s h.blockNumber h.hash) (moves_idle host _)
  · exact .trans (moves_setStart s h.blockNumber h.hash) (moves_syncBlocks host _)
  · exact .trans stored (moves_idle host _)
  · refine .trans stored (.trans ?_ (moves_findingContinueSync host _))
    exact .search _ _ _ _ _ _

/-- So is what it does with another one. -/
theorem moves_findingOnUnexpected : Moves s (s.findingOnUnexpected host) := by
  unfold findingOnUnexpected
  split
  · exact .trans (.search s _ _ 0 _ _) (moves_idle host _)
  · exact .trans (.search s _ _ _ _ _) (moves_findingContinueSync host _)

/-- So is what it does with a packet. -/
theorem moves_findingOnPeerBlockHeaders (peer : Peer) (items : Option (List SyncHeader)) :
    Moves s (s.findingOnPeerBlockHeaders facts host peer items) := by
  unfold findingOnPeerBlockHeaders
  split
  · exact .refl s
  · refine .trans (.downloads (reset_clearPeerDownload peer)) ?_
    simp only
    split
    · exact .refl _
    · split
      · exact moves_findingOnExpected facts host _ _
      · exact moves_findingOnUnexpected host _
    · exact moves_findingContinueSync host _

/-- So is putting blocks together. -/
theorem moves_collectBlocks : Moves s (s.collectBlocks host).2 := by
  obtain ⟨number, hash, frame⟩ := reset_collectBlocks host s
  exact .trans (moves_setStart s number hash) (.downloads frame)

/-- So is the end of a packet. -/
theorem moves_finishPacket : Moves s (s.finishPacket host) := by
  unfold finishPacket
  have collected := moves_collectBlocks host s
  split
  · exact moves_idle host s
  · split
    · rename_i ended
      rw [ended] at collected
      exact .trans collected (moves_idle host _)
    · rename_i ended
      rw [ended] at collected
      refine .trans collected ?_
      split
      · exact moves_idle host _
      · exact moves_syncHeadersAndBodies host _

/-- So is the download of headers. -/
theorem moves_syncOnPeerBlockHeaders (peer : Peer) (items : Option (List SyncHeader)) :
    Moves s (s.syncOnPeerBlockHeaders facts host peer items) := by
  unfold syncOnPeerBlockHeaders
  split
  · exact .downloads (reset_clearPeerDownload peer)
  · rename_i items
    have stored := reset_storeHeaders facts (s.clearPeerDownload peer) items
    rw [reset_clearPeerDownload] at stored
    split
    · rename_i ended
      rw [ended] at stored
      exact .trans (.downloads stored) (moves_idle host _)
    · rename_i ended
      rw [ended] at stored
      exact .trans (.downloads stored) (moves_finishPacket host _)

/-- So is the download of bodies. -/
theorem moves_syncOnPeerBlockBodies (peer : Peer) (items : List (Option β)) :
    Moves s (s.syncOnPeerBlockBodies facts host peer items) := by
  have stored := reset_storeBodies facts (s.clearPeerDownload peer) items
  rw [reset_clearPeerDownload] at stored
  unfold syncOnPeerBlockBodies
  split
  · rename_i ended
    rw [ended] at stored
    exact .downloads stored
  · rename_i ended
    rw [ended] at stored
    exact .trans (.downloads stored) (moves_finishPacket host _)

variable {facts host s}

/-- So is a packet of headers in any state. -/
theorem moves_onPeerBlockHeaders (peer : Peer) (items : Option (List SyncHeader)) :
    Moves s (s.onPeerBlockHeaders facts host peer items) := by
  have timed := moves_updateTimeout host s
  unfold onPeerBlockHeaders
  split
  · split
    · exact moves_idle host s
    · exact .refl s
  · split
    · rename_i late
      rwa [late] at timed
    · rename_i early
      rw [early] at timed
      exact .trans timed (moves_findingOnPeerBlockHeaders facts host _ peer items)
  · split
    · rename_i late
      rwa [late] at timed
    · rename_i early
      rw [early] at timed
      exact .trans timed (moves_syncOnPeerBlockHeaders facts host _ peer items)
  · exact .refl s

/-- So is a packet of bodies in any state. -/
theorem moves_onPeerBlockBodies (peer : Peer) (items : List (Option β)) :
    Moves s (s.onPeerBlockBodies facts host peer items) := by
  have timed := moves_updateTimeout host s
  unfold onPeerBlockBodies
  split
  · split
    · exact moves_idle host s
    · exact .refl s
  · exact .trans timed (moves_findingKeepAlive host _)
  · split
    · rename_i late
      rwa [late] at timed
    · rename_i early
      rw [early] at timed
      exact .trans timed (moves_syncOnPeerBlockBodies facts host _ peer items)
  · exact .refl s

/-- A status does no more, unless the sync is idle. -/
theorem moves_onPeerStatus (peer : PeerStatus) (busy : s.currState ≠ .idle) :
    Moves s (s.onPeerStatus host peer) := by
  have timed := moves_updateTimeout host s
  unfold onPeerStatus
  split
  · exact absurd ‹_› busy
  · split
    · exact moves_idle host s
    · exact .refl s
  · exact .trans timed (moves_findingKeepAlive host _)
  · exact .trans timed (moves_syncKeepAlive host _)
  · exact .refl s

/-- A new block does no more, unless the sync is idle or waits. -/
theorem moves_onPeerNewBlock (block : Option NewBlock) (busy : s.currState ≠ .idle)
    (active : s.currState ≠ .waiting) : Moves s (s.onPeerNewBlock host block) := by
  have timed := moves_updateTimeout host s
  unfold onPeerNewBlock
  split
  · exact absurd ‹_› busy
  · exact absurd ‹_› active
  · exact .trans timed (moves_findingKeepAlive host _)
  · exact .trans timed (moves_syncKeepAlive host _)
  · exact .refl s

/-- The idle state handles a status. -/
theorem onPeerStatus_idle (peer : PeerStatus) (idle : s.currState = .idle) :
    s.onPeerStatus host peer = s.idleOnPeerStatus host peer := by
  rw [onPeerStatus, idle]

/-- The idle state handles a new block. -/
theorem onPeerNewBlock_idle (block : NewBlock) (idle : s.currState = .idle) :
    s.onPeerNewBlock host (some block) = s.idleOnPeerNewBlock host block := by
  rw [onPeerNewBlock, idle]

/-- The waiting state handles a new block when its time has come. -/
theorem onPeerNewBlock_waiting (block : NewBlock) (waiting : s.currState = .waiting) :
    s.onPeerNewBlock host (some block) =
      if s.checkTime host then s.waitingOnPeerNewBlock host block else s := by
  rw [onPeerNewBlock, waiting]

/-- A new block that cannot be read does no more in any state. -/
theorem moves_onPeerNewBlock_none : Moves s (s.onPeerNewBlock host none) := by
  by_cases idle : s.currState = .idle
  · rw [onPeerNewBlock, idle]
    exact .refl s
  by_cases waiting : s.currState = .waiting
  · rw [onPeerNewBlock, waiting]
    simp only [ite_self]
    exact .refl s
  · exact moves_onPeerNewBlock none idle waiting

end Moves

section Control

/-- The state that is noted handles the events, and no lock on making blocks is held while that is
the idle one. -/
structure Named (s : BlockChainSync β) : Prop where
  named : s.state = s.currState
  unlocked : s.currState = .idle → s.lockBlockGen = false

/-- The downloads have no part in the note. -/
theorem Named.of_reset (named : s.Named) (frame : t.resetSyncTempData = s.resetSyncTempData) :
    t.Named := by
  have state : t.state = s.state := congrArg (·.state) frame
  have curr : t.currState = s.currState := congrArg (·.currState) frame
  have lock : t.lockBlockGen = s.lockBlockGen := congrArg (·.lockBlockGen) frame
  refine ⟨by rw [state, curr, named.named], ?_⟩
  rw [curr, lock]
  exact named.unlocked

/-- A state that is entered is noted. -/
theorem named_enter (next : SyncState) (other : s.state ≠ next) (proper : next ≠ .state) :
    (s.enter next).Named := by
  unfold enter
  rw [if_neg other]
  cases next with
  | state => exact absurd rfl proper
  | idle => exact ⟨rfl, fun _ => rfl⟩
  | _ => exact ⟨rfl, by simp [resetSyncTempData]⟩

/-- What events may do while a sync goes on keeps the note. -/
theorem Named.moves (named : s.Named) (moves : Moves s t) : t.Named := by
  induction moves with
  | downloads frame => exact named.of_reset frame
  | search => exact ⟨named.named, named.unlocked⟩
  | idle s =>
    by_cases same : s.state = .idle
    · unfold enter
      rwa [if_pos same]
    · exact named_enter .idle same (by decide)
  | syncBlocks s => exact ⟨rfl, by simp⟩
  | trans _ _ first second => exact second (first named)

/-- A search that starts is noted. -/
theorem named_startFinding {number : ℕ} {hash latestHash : Hash}
    (other : s.state ≠ .findingCommonBlock) :
    (s.startFinding host number hash latestHash).Named :=
  named_enter .findingCommonBlock other (by decide)

section

variable (named : s.Named)

include named

/-- A status keeps the note in the idle state. -/
theorem Named.idleOnPeerStatus {peer : PeerStatus} (idle : s.currState = .idle) :
    (s.idleOnPeerStatus host peer).Named := by
  have other : s.state ≠ .findingCommonBlock := by simp [named.named, idle]
  unfold BlockChainSync.idleOnPeerStatus
  split_ifs
  · exact named
  · exact named
  · exact named
  · exact named_startFinding other
  · exact named_startFinding other
  · exact named

/-- So does a new block. -/
theorem Named.idleOnPeerNewBlock {block : NewBlock} (idle : s.currState = .idle) :
    (s.idleOnPeerNewBlock host block).Named := by
  have other : s.state ≠ .findingCommonBlock := by simp [named.named, idle]
  unfold BlockChainSync.idleOnPeerNewBlock
  simp only
  split_ifs
  · exact named
  · exact named
  · exact named_startFinding other
  · exact named
  · exact named_enter .waiting (by simp [named.named, idle]) (by decide)
  · unfold idleOnImport
    split
    · split
      · exact ⟨named.named, named.unlocked⟩
      · exact named
    · exact named_startFinding (by split <;> exact other)
    · exact named_startFinding (by split <;> exact other)
    · exact named.of_reset reset_reset
    · exact named

/-- So does a new block in the waiting state. -/
theorem Named.waitingOnPeerNewBlock {block : NewBlock} (waiting : s.currState = .waiting) :
    (s.waitingOnPeerNewBlock host block).Named := by
  unfold BlockChainSync.waitingOnPeerNewBlock
  split_ifs
  · exact named
  · exact named
  · exact named_startFinding (by simp [named.named, waiting])

/-- An event that writes the note of the state itself does it only when that state handles the
events, which no event leads to for the states that are not synced or download blocks. -/
def Naming (s : BlockChainSync β) : Event β → Prop
  | .roomAvailable => s.currState = .blocks
  | .restartSync _ => s.currState = .notSynced
  | .completeSync => s.currState = .idle
  | .pauseSync => s.currState = .waiting
  | _ => True

instance (s : BlockChainSync β) : (event : Event β) → Decidable (s.Naming event)
  | .roomAvailable | .restartSync _ | .completeSync | .pauseSync =>
    inferInstanceAs (Decidable (s.currState = _))
  | .peerStatus .. | .peerBlockHeaders .. | .peerBlockBodies .. | .peerNewBlock ..
  | .blockImported .. => inferInstanceAs (Decidable True)

/-- So does a status in any state. -/
theorem Named.onPeerStatus {peer : PeerStatus} : (s.onPeerStatus host peer).Named := by
  by_cases idle : s.currState = .idle
  · rw [onPeerStatus_idle peer idle]
    exact named.idleOnPeerStatus idle
  · exact named.moves (moves_onPeerStatus peer idle)

/-- So does a new block in any state. -/
theorem Named.onPeerNewBlock {block : Option NewBlock} : (s.onPeerNewBlock host block).Named := by
  cases block with
  | none => exact named.moves moves_onPeerNewBlock_none
  | some block =>
    by_cases idle : s.currState = .idle
    · rw [onPeerNewBlock_idle block idle]
      exact named.idleOnPeerNewBlock idle
    by_cases waiting : s.currState = .waiting
    · rw [onPeerNewBlock_waiting block waiting]
      split
      · exact named.waitingOnPeerNewBlock waiting
      · exact named
    · exact named.moves (moves_onPeerNewBlock (some block) idle waiting)

/-- So does every event that does not write the note otherwise. -/
theorem Named.step {event : Event β} (naming : s.Naming event)
    (taken : BlockChainSync.step facts event s = some t) : t.Named := by
  obtain rfl := Option.some.inj taken
  cases event with
  | peerStatus host peer => exact named.onPeerStatus
  | peerBlockHeaders host peer items => exact named.moves (moves_onPeerBlockHeaders peer items)
  | peerBlockBodies host peer items => exact named.moves (moves_onPeerBlockBodies peer items)
  | peerNewBlock host block => exact named.onPeerNewBlock
  | blockImported info lastIrrBlock lastIrrBlockHash =>
    change (s.onBlockImported info lastIrrBlock lastIrrBlockHash).Named
    unfold onBlockImported
    simp only
    split_ifs <;> exact ⟨named.named, named.unlocked⟩
  | roomAvailable => exact ⟨naming.symm, named.unlocked⟩
  | restartSync host => exact ⟨naming.symm, named.unlocked⟩
  | completeSync => exact ⟨naming.symm, named.unlocked⟩
  | pauseSync => exact ⟨naming.symm, named.unlocked⟩

end

/-- The note is right at the start. -/
theorem named_start (number : ℕ) (hash : Hash) (lastIrrBlock : ℕ) (lastIrrBlockHash : Hash) :
    (start number hash lastIrrBlock lastIrrBlockHash : BlockChainSync β).Named :=
  ⟨rfl, fun _ => rfl⟩

/-- In every run in which the note is not written otherwise, it names the state that handles the
events, and making blocks is not locked in the idle one. -/
theorem state_names_currState {number lastIrrBlock : ℕ} {hash lastIrrBlockHash : Hash}
    {events : List (Event β)}
    (naming : Runs.Along (BlockChainSync.step facts) Naming events
      (start number hash lastIrrBlock lastIrrBlockHash))
    (ran : Runs.run (BlockChainSync.step facts) events
      (start number hash lastIrrBlock lastIrrBlockHash) = some t) :
    t.state = t.currState ∧ (t.currState = .idle → t.lockBlockGen = false) := by
  have named : t.Named := Runs.keeps (fun _ _ _ held fits taken => Named.step held fits taken)
    (named_start number hash lastIrrBlock lastIrrBlockHash) naming ran
  exact ⟨named.named, named.unlocked⟩

/-- Bodies that are numbers, the empty one zero. -/
def sampleBodies : BodyFacts ℕ where
  id body := ⟨BitVec.ofNat 256 body, 0⟩
  emptyBody := 0

/-- A host whose chain has six blocks and whose queue is empty. -/
def sampleSyncHost : SyncHost ℕ where
  now := 1000
  timedOut := false
  quiet := false
  knownCount := 0
  knownFull := false
  unknownFull := false
  blockStatus _ := .unknown
  importBlock _ _ := .success
  import_answers _ _ := ⟨by simp, by simp⟩
  importNew := .success
  chainNumber := 5
  currentHash := 105
  numberHash number := BitVec.ofNat 256 (100 + number)
  isKnown hash := 100 ≤ hash.toNat && hash.toNat ≤ 105
  freePeer := some 1

/-- A peer that is ahead on the same chain. -/
def samplePeer : PeerStatus where
  peer := 1
  accepted := true
  lastIrrBlock := 3
  lastIrrBlockHash := 103
  latestHash := 108

-- The numerals for the branches and the blocks of the sample.
instance neZero_two : NeZero 2 := ⟨by decide⟩

instance neZero_ten : NeZero 10 := ⟨by decide⟩

/-- The header of a block on a chain of the same blocks up to the fifth, with another one after it
in the second branch. -/
def sampleHeader (branch : Fin 2) (number : Fin 10) : SyncHeader where
  number := number
  hash := BitVec.ofNat 256 (100 + 50 * branch + number)
  parentHash := BitVec.ofNat 256 (if number = 6 then 105 else 99 + 50 * branch + number)
  transactionsRoot := BitVec.ofNat 256 (10 * branch + number)
  sha3Uncles := 0
  hash_ne_zero := by decide +revert +kernel

/-- The sync of the sample chain after some events. -/
def sampleSync (events : List (Event ℕ)) : Option (BlockChainSync ℕ) :=
  Runs.run (step sampleBodies) events (start 5 105 3 103)

/-- A sync is noted as complete while it is idle, waits after a new block, and is paused then. -/
def pausedRun : List (Event ℕ) :=
  [.completeSync, .peerNewBlock sampleSyncHost (some ⟨sampleHeader 1 4, 4, 104, false⟩), .pauseSync]

/-- After the notes that are written directly, the note is still the state that handles the events.
-/
theorem state_names_currState_paused : ∃ t, sampleSync pausedRun = some t ∧
    t.currState = .waiting ∧ t.state = t.currState := by
  obtain ⟨t, ran⟩ := Option.isSome_iff_exists.mp
    (show (sampleSync pausedRun).isSome = true from rfl)
  have current : (sampleSync pausedRun).map (·.currState) = some .waiting := by decide +kernel
  rw [ran] at current
  exact ⟨t, ran, Option.some.inj current, (state_names_currState (by decide +kernel) ran).1⟩

/-- When the queue has room, the note is no longer the state that handles events; after a pause, it
is not either, and making blocks is locked in the idle state. -/
theorem state_misnames_currState :
    (sampleSync [.peerStatus sampleSyncHost samplePeer, .roomAvailable]).map
        (fun s => (s.state, s.currState)) = some (.blocks, .findingCommonBlock) ∧
      (sampleSync [.pauseSync, .peerNewBlock sampleSyncHost
          (some ⟨sampleHeader 1 4, 4, 104, false⟩)]).map
        (fun s => (s.state, s.currState, s.lockBlockGen)) = some (.waiting, .idle, true) := by
  decide +kernel

end Control

end BlockChainSync

end Etiam
