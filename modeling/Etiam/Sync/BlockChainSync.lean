import Etiam.Queue.Blocks
import Etiam.Sync.Chunks

/-! The state machine that follows the chains of the peers, with the packets that drive it. -/

namespace Etiam

/-- The state of the sync. -/
inductive SyncState where
  | notSynced
  | idle
  | waiting
  | blocks
  | state
  | findingCommonBlock
  | syncBlocks
  deriving DecidableEq

/-- What identifies a header by the body that belongs to it. -/
structure HeaderId where
  transactionsRoot : Hash
  uncles : Hash
  deriving DecidableEq

/-- What the sync reads of a block header. -/
structure SyncHeader where
  number : ℕ
  hash : Hash
  parentHash : Hash
  transactionsRoot : Hash
  sha3Uncles : Hash
  /-- No header has the hash that stands for none. -/
  hash_ne_zero : hash ≠ 0
  deriving DecidableEq

namespace SyncHeader

variable (h : SyncHeader)

/-- The number of a block in the machine type that the sync uses. -/
def blockNumber : ℕ := h.number % 2 ^ 32

theorem blockNumber_lt : h.blockNumber < 2 ^ 32 := Nat.mod_lt _ (by decide)

/-- The identifier of a header. -/
def id : HeaderId := ⟨h.transactionsRoot, h.sha3Uncles⟩

end SyncHeader

/-- What the sync computes of block bodies. -/
structure BodyFacts (β : Type) where
  /-- The root of the transactions and the hash of the uncles. -/
  id : β → HeaderId
  emptyBody : β

/-- A connection to another node. -/
abbrev Peer := ℕ

/-- What a peer says about itself. -/
structure PeerStatus where
  peer : Peer
  /-- The session is there, and the genesis, the protocol and the network are those of the host. -/
  accepted : Bool
  lastIrrBlock : ℕ
  lastIrrBlockHash : Hash
  latestHash : Hash

/-- A packet with a new block. -/
structure NewBlock where
  header : SyncHeader
  lastIrrBlock : ℕ
  lastIrrBlockHash : Hash
  /-- The peer has sent too many blocks that do not fit. -/
  tooManyUnknown : Bool

/-- What the host answers while one event is handled: its clock, its queue, its chain and its
peers. -/
structure SyncHost (β : Type) where
  now : ℕ
  /-- The time limit of the state has passed since its last event. -/
  timedOut : Bool
  /-- No block message has come for a while. -/
  quiet : Bool
  knownCount : ℕ
  knownFull : Bool
  unknownFull : Bool
  blockStatus : Hash → QueueStatus
  /-- How the queue takes a block of a downloaded header and body. -/
  importBlock : SyncHeader → β → ImportResult
  /-- The queue of blocks gives no answer that is only for transactions. -/
  import_answers : ∀ header body, importBlock header body ≠ .overbidGasPrice ∧
    importBlock header body ≠ .zeroSignature
  /-- How the queue takes the block of a packet. -/
  importNew : ImportResult
  chainNumber : ℕ
  currentHash : Hash
  numberHash : ℕ → Hash
  isKnown : Hash → Bool
  /-- The legal peer with the highest irreversible block that nothing is asked of. -/
  freePeer : Option Peer

/-- The sync. -/
structure BlockChainSync (β : Type) where
  state : SyncState
  /-- The state whose object handles the events. -/
  currState : SyncState
  lockBlockGen : Bool
  bootFlag : Bool
  downloadingHeaders : Finset ℕ
  downloadingBodies : Finset ℕ
  headers : List (ℕ × List SyncHeader)
  bodies : List (ℕ × List β)
  headerSyncPeers : Peer → List ℕ
  bodySyncPeers : Peer → List ℕ
  headerIdToNumber : HeaderId → Option ℕ
  lastImportedBlock : ℕ
  lastImportedBlockHash : Hash
  lastIrreversibleBlock : ℕ
  lastIrreversibleBlockHash : Hash
  syncStartBlock : ℕ
  syncStartBlockHash : Hash
  syncLastIrrBlock : ℕ
  expectBlockForFindingCommon : ℕ
  expectBlockHashForFindingCommon : Hash
  waitingTarget : ℕ
  unexpectTimes : ℕ

/-- What the sync asks of a peer. -/
inductive SyncRequest where
  | blockBodies (hashes : List Hash)
  | blockHeaders (start count : ℕ)
  deriving DecidableEq

/-- The end of an attempt to put blocks together. -/
inductive Collected where
  /-- A chunk was read that is not there. -/
  | outside
  | success
  | failure
  deriving DecidableEq

/-- The next number in the machine type. -/
def nextNumber (n : ℕ) : ℕ := (n + 1) % 2 ^ 32

/-- The number before in the machine type. -/
def prevNumber (n : ℕ) : ℕ := (n + (2 ^ 32 - 1)) % 2 ^ 32

/-- The largest number of headers or bodies that are requested at once. -/
def maxRequest : ℕ := 1024

/-- The number of blocks in the queue above which no more are downloaded. -/
def blockQueueGap : ℕ := 1000

namespace BlockChainSync

variable {β : Type} (facts : BodyFacts β) (host : SyncHost β) (s : BlockChainSync β)

/-- The sync at the start, which has the head of the chain and its last irreversible block. -/
def start (number : ℕ) (hash : Hash) (lastIrrBlock : ℕ) (lastIrrBlockHash : Hash) :
    BlockChainSync β where
  state := .idle
  currState := .idle
  lockBlockGen := false
  bootFlag := true
  downloadingHeaders := ∅
  downloadingBodies := ∅
  headers := []
  bodies := []
  headerSyncPeers _ := []
  bodySyncPeers _ := []
  headerIdToNumber _ := none
  lastImportedBlock := number
  lastImportedBlockHash := hash
  lastIrreversibleBlock := lastIrrBlock
  lastIrreversibleBlockHash := lastIrrBlockHash
  syncStartBlock := 0
  syncStartBlockHash := 0
  syncLastIrrBlock := 0
  expectBlockForFindingCommon := 0
  expectBlockHashForFindingCommon := 0
  waitingTarget := 0
  unexpectTimes := 0

section Data

/-- Forget all that was downloaded and what is being downloaded. -/
def resetSyncTempData : BlockChainSync β :=
  { s with
    downloadingHeaders := ∅
    downloadingBodies := ∅
    headers := []
    bodies := []
    headerSyncPeers := fun _ => []
    bodySyncPeers := fun _ => []
    headerIdToNumber := fun _ => none }

/-- Forget what is being downloaded from a peer. -/
def clearPeerDownload (peer : Peer) : BlockChainSync β :=
  { s with
    downloadingHeaders := s.downloadingHeaders \ (s.headerSyncPeers peer).toFinset
    headerSyncPeers := Function.update s.headerSyncPeers peer []
    downloadingBodies := s.downloadingBodies \ (s.bodySyncPeers peer).toFinset
    bodySyncPeers := Function.update s.bodySyncPeers peer [] }

/-- Nothing is left of what was downloaded. -/
def checkSyncComplete : Bool := s.headers.isEmpty

/-- Store a header whose number is not there, with its body if that is empty. -/
def storeHeader (h : SyncHeader) : BlockChainSync β :=
  if h.id = facts.id facts.emptyBody then
    { s with
      headers := Sync.mergeInto s.headers h.blockNumber h
      bodies := Sync.mergeInto s.bodies h.blockNumber facts.emptyBody }
  else
    { s with
      headers := Sync.mergeInto s.headers h.blockNumber h
      headerIdToNumber := Function.update s.headerIdToNumber h.id (some h.blockNumber) }

end Data

/-- Let the sync start after a block. -/
def setStart (number : ℕ) (hash : Hash) : BlockChainSync β :=
  { s with syncStartBlock := number, syncStartBlockHash := hash }

section Switch

/-- Let another state but the one that downloads blocks handle the events, if it is not the one
that is noted. -/
def enter (next : SyncState) : BlockChainSync β :=
  if s.state = next then s
  else
    match next with
    | .idle =>
      resetSyncTempData { s with state := .idle, currState := .idle, lockBlockGen := false }
    | .waiting => resetSyncTempData { s with state := .waiting, currState := .waiting }
    | .findingCommonBlock =>
      { s with state := .findingCommonBlock, currState := .findingCommonBlock, unexpectTimes := 0 }
    | .state => { s with state := .state }
    | other => { s with state := other, currState := other }

/-- The headers of the first chunk whose bodies are missing and not being downloaded. -/
def neededBodies : List (SyncHeader × ℕ) :=
  match s.headers with
  | (first, headers) :: _ =>
    if first = nextNumber s.syncStartBlock then
      ((headers.zipIdx first).filter fun (_, number) =>
        number ∉ s.downloadingBodies ∧ Sync.haveItem s.bodies number = false).take maxRequest
    else []
  | [] => []

/-- Note the number of a header whose body is requested, if its identifier is not known. -/
def noteNeeded (ids : HeaderId → Option ℕ) (needed : SyncHeader × ℕ) : HeaderId → Option ℕ :=
  if ids needed.1.id = none then Function.update ids needed.1.id (some needed.2) else ids

/-- Skip numbers that are being downloaded. -/
def skipDownloading : ℕ → ℕ → ℕ × ℕ
  | start, 0 => (start, 0)
  | start, count + 1 =>
    if start ∈ s.downloadingHeaders then skipDownloading (start + 1) count else (start, count + 1)

/-- Request headers of the first gap where some are missing. The fuel bounds the rounds of the loop,
and nothing is returned while it is still running. -/
def requestHeaders (peer : Peer) :
    ℕ → ℕ → List (ℕ × List SyncHeader) → Option (Option SyncRequest × BlockChainSync β)
  | _, _, [] => some (none, s)
  | 0, _, _ :: _ => none
  | fuel + 1, start, next :: rest =>
    let (start, count) := s.skipDownloading start (min maxRequest (next.1 - start))
    let headers := (List.range' start count).filter (· ∉ s.downloadingHeaders)
    if headers ≠ [] then
      some (some (.blockHeaders start headers.length), { s with
        downloadingHeaders := s.downloadingHeaders ∪ headers.toFinset
        headerSyncPeers := Function.update s.headerSyncPeers peer headers })
    else if next.1 ≤ start then requestHeaders peer fuel (next.1 + next.2.length) rest
    else requestHeaders peer fuel start (next :: rest)

/-- The part of a request that is for headers, from the start of the sync on or, if the first chunk
follows it, from the end of that chunk on. -/
def headerPart (peer : Peer) (fuel : ℕ) : Option (Option SyncRequest × BlockChainSync β) :=
  match s.headers with
  | (first, headers) :: rest =>
    if first ≤ nextNumber s.syncStartBlock then
      s.requestHeaders peer fuel (first + headers.length) rest
    else s.requestHeaders peer fuel (nextNumber s.syncStartBlock) s.headers
  | [] => some (none, s)

/-- The rounds after which the loop has come to its end. -/
def headerRounds : ℕ := (s.headers.map (·.1)).sum + s.headers.length + 1

/-- Request what is missing from a peer: bodies of the first chunk, or else headers. -/
def syncHeadersAndBodiesFrom (peer : Peer) : Option SyncRequest × BlockChainSync β :=
  let needed := s.neededBodies
  if needed ≠ [] then
    (some (.blockBodies (needed.map (·.1.hash))), { s with
      downloadingBodies := s.downloadingBodies ∪ (needed.map Prod.snd).toFinset
      headerIdToNumber := needed.foldl noteNeeded s.headerIdToNumber
      bodySyncPeers := Function.update s.bodySyncPeers peer (needed.map Prod.snd) })
  -- The loop has ended by then, so the default does not come up.
  else (s.headerPart peer s.headerRounds).getD (none, s)

/-- The gaps before the chunks, from a number on, each with its first number and its end. -/
def gapsFrom : ℕ → List (ℕ × List SyncHeader) → List (ℕ × ℕ)
  | _, [] => []
  | start, next :: rest => (start, next.1) :: gapsFrom (next.1 + next.2.length) rest

/-- The gaps of the header store from the start of the sync on, or else after its first chunk. -/
def headerGaps : List (ℕ × ℕ) :=
  match s.headers with
  | (first, headers) :: rest =>
    if first ≤ nextNumber s.syncStartBlock then gapsFrom (first + headers.length) rest
    else gapsFrom (nextNumber s.syncStartBlock) s.headers
  | [] => []

/-- Request what is missing from the best free peer, unless the queue has enough blocks. -/
def syncHeadersAndBodies : BlockChainSync β :=
  if blockQueueGap < host.knownCount then s.resetSyncTempData.enter .idle
  else
    match host.freePeer with
    | none => s
    | some peer =>
      let s := s.clearPeerDownload peer
      if host.knownFull then s.resetSyncTempData.enter .idle
      else (s.syncHeadersAndBodiesFrom peer).2

/-- Let another state handle the events, if it is not the one that is noted. -/
def switchState (next : SyncState) : BlockChainSync β :=
  if next = .syncBlocks ∧ s.state ≠ .syncBlocks then
    syncHeadersAndBodies host { s with state := .syncBlocks, currState := .syncBlocks }
  else s.enter next

/-- Whether the time limit of the handling state has passed; then it is left. -/
def updateTimeout : Bool × BlockChainSync β :=
  if host.timedOut ∧ (s.currState = .findingCommonBlock ∨ s.currState = .syncBlocks) then
    (true, s.switchState host .idle)
  else (false, s)

end Switch

section Idle

/-- A peer has passed the checks, and has no other block where this node has an irreversible one. -/
def peerLegalCheck (peer : PeerStatus) : Bool :=
  peer.accepted && (s.lastIrreversibleBlock < peer.lastIrrBlock ||
    peer.lastIrrBlockHash = host.numberHash peer.lastIrrBlock)

/-- Look for a common block with a peer, from a block on back. -/
def startFinding (number : ℕ) (hash latestHash : Hash) : BlockChainSync β :=
  switchState host
    { s with
      syncStartBlock := number
      syncStartBlockHash := hash
      syncLastIrrBlock := s.lastIrreversibleBlock
      expectBlockHashForFindingCommon := latestHash
      expectBlockForFindingCommon := 0 } .findingCommonBlock

/-- A status comes while idle: the search starts if the peer has an unknown block that is as far. -/
def idleOnPeerStatus (peer : PeerStatus) : BlockChainSync β :=
  if s.peerLegalCheck host peer = false then s
  else if peer.lastIrrBlock < s.lastIrreversibleBlock then s
  else if 10 < host.knownCount then s
  else if host.blockStatus peer.latestHash = .unknown then
    let s :=
      if s.lastIrreversibleBlock < peer.lastIrrBlock ∧ s.bootFlag then
        { s with bootFlag := false, lockBlockGen := true }
      else s
    s.startFinding host s.lastImportedBlock s.lastImportedBlockHash peer.latestHash
  else s

/-- What the arrival of a new block does once the queue has taken it or not. -/
def idleOnImport (block : NewBlock) : ImportResult → BlockChainSync β
  | .success =>
    if s.lastImportedBlock < block.header.blockNumber then
      { s with
        lastImportedBlock := block.header.blockNumber
        lastImportedBlockHash := block.header.hash }
    else s
  | .futureTimeUnknown | .unknownParent =>
    let s := if block.tooManyUnknown then s.resetSyncTempData else s
    s.startFinding host s.lastImportedBlock s.lastImportedBlockHash block.header.hash
  | .irreversible => s.resetSyncTempData
  | _ => s

/-- A new block comes while idle: it is imported, waited for, or leads to a search. -/
def idleOnPeerNewBlock (block : NewBlock) : BlockChainSync β :=
  let number := block.header.blockNumber
  if block.lastIrrBlock < s.lastIrreversibleBlock then s
  else if host.blockStatus block.header.hash ≠ .unknown then s
  else if nextNumber s.lastImportedBlock < number then
    if host.knownCount < 10 then
      s.startFinding host s.lastImportedBlock s.lastImportedBlockHash block.header.hash
    else s
  else if number < s.lastImportedBlock ∧ s.lastIrreversibleBlock < block.lastIrrBlock then
    switchState host
      { s with
        waitingTarget := host.now + 3 * (s.lastImportedBlock - number)
        lockBlockGen := true } .waiting
  else s.idleOnImport host block host.importNew

end Idle

section Waiting

/-- The time to wait for has come. -/
def checkTime : Bool := s.waitingTarget < host.now

/-- A new block ends the waiting and leads to a search from the last irreversible block. -/
def waitingOnPeerNewBlock (block : NewBlock) : BlockChainSync β :=
  if block.lastIrrBlock < s.lastIrreversibleBlock then s
  else if host.blockStatus block.header.hash ≠ .unknown then s
  else
    startFinding host { s with lockBlockGen := true } s.lastIrreversibleBlock
      (host.numberHash s.lastIrreversibleBlock) block.header.hash

end Waiting

section FindingCommonBlock

/-- The highest number that may be that of a common block. -/
def nextTryCommonBlock : ℕ :=
  match s.headers with
  | (first, _) :: _ => min s.syncStartBlock (prevNumber first)
  | [] => s.syncStartBlock

/-- Let the search go on at the next number that may be common. -/
def moveToNextCommonBlock : BlockChainSync β :=
  let start := s.nextTryCommonBlock
  { s with
    syncStartBlock := start
    syncStartBlockHash := host.numberHash start
    expectBlockForFindingCommon := start
    expectBlockHashForFindingCommon := 0 }

/-- A header has the hash or the number that the search has asked for. -/
def isExpectBlockHeader (h : SyncHeader) : Bool :=
  s.expectBlockHashForFindingCommon = h.hash ∨ s.expectBlockForFindingCommon = h.blockNumber

/-- The queue or the chain has a block. -/
def isCommon (hash : Hash) : Bool :=
  host.blockStatus hash = .importing ∨ host.blockStatus hash = .ready ∨ host.isKnown hash

/-- A request to the best free peer, for which it is asked nothing else. -/
def findingContinueSync : BlockChainSync β :=
  match host.freePeer with
  | none => s
  | some peer => s.clearPeerDownload peer

/-- Ask again for the next header if nothing has come for a while. -/
def findingKeepAlive : BlockChainSync β :=
  if host.quiet then s.findingContinueSync host else s

/-- A header that was expected is the common block, or is stored for the search to go on below. -/
def findingOnExpected (h : SyncHeader) : BlockChainSync β :=
  if h.blockNumber < s.syncLastIrrBlock then s.switchState host .idle
  else if Sync.haveItem s.headers h.blockNumber then s.findingContinueSync host
  else if isCommon host h.hash then
    let s := s.setStart h.blockNumber h.hash
    if s.checkSyncComplete then s.switchState host .idle else s.switchState host .syncBlocks
  else
    let s := s.storeHeader facts h
    if h.blockNumber = s.syncLastIrrBlock then s.switchState host .idle
    else (s.moveToNextCommonBlock host).findingContinueSync host

/-- A header that was not asked for is passed over, and too many of them end the search. -/
def findingOnUnexpected : BlockChainSync β :=
  if 20 < s.unexpectTimes + 1 then switchState host { s with unexpectTimes := 0 } .idle
  else findingContinueSync host { s with unexpectTimes := s.unexpectTimes + 1 }

/-- A packet of headers, unless one of them cannot be read. -/
def findingOnPeerBlockHeaders (peer : Peer) : Option (List SyncHeader) → BlockChainSync β
  | none => s
  | some items =>
    let s := s.clearPeerDownload peer
    match items with
    | [] => s
    | [h] =>
      if s.isExpectBlockHeader h then s.findingOnExpected facts host h
      else s.findingOnUnexpected host
    | _ => s.findingContinueSync host

end FindingCommonBlock

section SyncBlocks

/-- The headers of the chunk that starts at a number. -/
def headersAt (number : ℕ) : List SyncHeader :=
  ((s.headers.find? fun c => c.1 = number).map Prod.snd).getD []

/-- Drop the headers and bodies that follow a header and do not fit it. -/
def dropFollowing (h : SyncHeader) : BlockChainSync β :=
  let number := nextNumber h.blockNumber
  let following := List.range' number (s.headersAt number).length
  { s with
    -- It is the identifier of the header that has come, not of those that are dropped.
    headerIdToNumber := if following = [] then s.headerIdToNumber
      else Function.update s.headerIdToNumber h.id none
    downloadingBodies := s.downloadingBodies \ following.toFinset
    downloadingHeaders := s.downloadingHeaders \ following.toFinset
    headers := Sync.removeAllStartingWith s.headers number
    bodies := Sync.removeAllStartingWith s.bodies number }

/-- A header fits the one before it; all that follows and does not fit it is dropped. -/
def checkHeader (h : SyncHeader) : Bool × BlockChainSync β :=
  let number := h.blockNumber
  if (Sync.findItem s.headers (prevNumber number)).any (·.hash ≠ h.parentHash) ∨
      (number = nextNumber s.syncStartBlock ∧ h.parentHash ≠ s.syncStartBlockHash) then
    (false, s.resetSyncTempData)
  else if (Sync.findItem s.headers (nextNumber number)).any (·.parentHash ≠ h.hash) then
    (true, s.dropFollowing h)
  else (true, s)

/-- A header of a packet is passed over. -/
def skipsHeader (h : SyncHeader) : Bool :=
  h.blockNumber ≤ s.syncStartBlock ∨ h.blockNumber < s.syncLastIrrBlock ∨
    Sync.haveItem s.headers h.blockNumber

/-- Store the headers of a packet up to the first that does not fit. -/
def storeHeaders : List SyncHeader → BlockChainSync β → Bool × BlockChainSync β
  | [], s => (true, s)
  | h :: rest, s =>
    if s.skipsHeader h then storeHeaders rest s
    else
      match s.checkHeader h with
      | (false, s) => (false, s)
      | (true, s) => storeHeaders rest (s.storeHeader facts h)

/-- Store a body whose header is known by its identifier. -/
def storeBody (body : β) : BlockChainSync β :=
  match s.headerIdToNumber (facts.id body) with
  | none => s
  | some number =>
    if Sync.haveItem s.headers number = false ∨ Sync.haveItem s.bodies number then s
    else
      { s with
        headerIdToNumber := Function.update s.headerIdToNumber (facts.id body) none
        bodies := Sync.mergeInto s.bodies number body }

/-- Store the bodies of a packet up to the first that cannot be read. -/
def storeBodies : List (Option β) → BlockChainSync β → Bool × BlockChainSync β
  | [], s => (true, s)
  | none :: _, s => (false, s)
  | some body :: rest, s => storeBodies rest (s.storeBody facts body)

/-- What the answer of the queue to a block means for the blocks that follow. -/
inductive Progress where
  | advance
  | skip
  | stop
  | restart

/-- What an answer of the queue means, for a block that is past the start of the sync or not. -/
def progress (ahead : Bool) : ImportResult → Progress
  | .success | .futureTimeKnown | .alreadyInChain | .alreadyKnown =>
    if ahead then .advance else .skip
  | .malformed | .badChain | .irreversible => .restart
  | .futureTimeUnknown | .unknownParent => if ahead then .restart else .stop
  | _ => .skip

/-- Import blocks until one of them ends it; the answer is what is returned then, if it is, and the
number of blocks before. -/
def importBlocks (first : ℕ) :
    ℕ → List (SyncHeader × β) → BlockChainSync β → Option Collected × ℕ × BlockChainSync β
  | i, [], s => (none, i, s)
  | i, (header, body) :: rest, s =>
    match progress (s.syncStartBlock < first + i) (host.importBlock header body) with
    | .advance => importBlocks first (i + 1) rest (s.setStart (first + i) header.hash)
    | .skip => importBlocks first (i + 1) rest s
    | .stop => (some .success, i, s)
    | .restart => (some .failure, i, s.resetSyncTempData)

/-- A map of chunks without the first items of its first chunk. -/
def dropFirst {α : Type} (i first : ℕ) (items : List α) (rest : List (ℕ × List α)) :
    List (ℕ × List α) :=
  if items.drop i = [] then rest else (first + i, items.drop i) :: rest

/-- Put the headers and bodies next to the start together and import the blocks. -/
def collectBlocks : Collected × BlockChainSync β :=
  match s.headers, s.bodies with
  | (first, headers) :: otherHeaders, (firstBody, bodies) :: otherBodies =>
    if first ≠ firstBody ∨ first ≠ nextNumber s.syncStartBlock then (.success, s)
    else
      match importBlocks host first 0 (headers.zip bodies) s with
      | (some result, _, s) => (result, s)
      | (none, i, s) =>
        if host.unknownFull then (.failure, s.resetSyncTempData)
        else
          (.success, { s with
            headers := dropFirst i first headers otherHeaders
            bodies := dropFirst i first bodies otherBodies })
  | _, _ => (.outside, s)

/-- What is done once the items of a packet are stored. A chunk that is not there has no number that
fits. -/
def finishPacket : BlockChainSync β :=
  if s.checkSyncComplete then s.switchState host .idle
  else
    match s.collectBlocks host with
    | (.failure, s) => s.switchState host .idle
    | (_, s) =>
      if s.checkSyncComplete then s.switchState host .idle else s.syncHeadersAndBodies host

/-- Ask again for what is missing if nothing has come for a while. -/
def syncKeepAlive : BlockChainSync β :=
  if host.quiet then s.syncHeadersAndBodies host else s

/-- A packet of headers, unless one of them cannot be read. -/
def syncOnPeerBlockHeaders (peer : Peer) : Option (List SyncHeader) → BlockChainSync β
  | none => s.clearPeerDownload peer
  | some items =>
    match (s.clearPeerDownload peer).storeHeaders facts items with
    | (false, s) => s.switchState host .idle
    | (true, s) => s.finishPacket host

/-- A packet of bodies, which is finished unless one of them cannot be read. -/
def syncOnPeerBlockBodies (peer : Peer) (items : List (Option β)) : BlockChainSync β :=
  match (s.clearPeerDownload peer).storeBodies facts items with
  | (false, s) => s
  | (true, s) => s.finishPacket host

end SyncBlocks

section Events

/-- A status comes in whatever state handles the events. -/
def onPeerStatus (peer : PeerStatus) : BlockChainSync β :=
  match s.currState with
  | .idle => s.idleOnPeerStatus host peer
  | .waiting => if s.checkTime host then s.switchState host .idle else s
  | .findingCommonBlock => (s.updateTimeout host).2.findingKeepAlive host
  | .syncBlocks => (s.updateTimeout host).2.syncKeepAlive host
  | _ => s

/-- Headers come in whatever state handles the events. -/
def onPeerBlockHeaders (peer : Peer) (items : Option (List SyncHeader)) : BlockChainSync β :=
  match s.currState with
  | .waiting => if s.checkTime host then s.switchState host .idle else s
  | .findingCommonBlock =>
    match s.updateTimeout host with
    | (true, s) => s
    | (false, s) => s.findingOnPeerBlockHeaders facts host peer items
  | .syncBlocks =>
    match s.updateTimeout host with
    | (true, s) => s
    | (false, s) => s.syncOnPeerBlockHeaders facts host peer items
  | _ => s

/-- Bodies come in whatever state handles the events. -/
def onPeerBlockBodies (peer : Peer) (items : List (Option β)) : BlockChainSync β :=
  match s.currState with
  | .waiting => if s.checkTime host then s.switchState host .idle else s
  | .findingCommonBlock => (s.updateTimeout host).2.findingKeepAlive host
  | .syncBlocks =>
    match s.updateTimeout host with
    | (true, s) => s
    | (false, s) => s.syncOnPeerBlockBodies facts host peer items
  | _ => s

/-- A new block comes, unless the packet cannot be read. -/
def onPeerNewBlock (block : Option NewBlock) : BlockChainSync β :=
  match s.currState with
  | .idle =>
    match block with
    | none => s
    | some block => s.idleOnPeerNewBlock host block
  | .waiting =>
    if s.checkTime host then
      match block with
      | none => s
      | some block => s.waitingOnPeerNewBlock host block
    else s
  | .findingCommonBlock => (s.updateTimeout host).2.findingKeepAlive host
  | .syncBlocks => (s.updateTimeout host).2.syncKeepAlive host
  | _ => s

/-- The chain has imported a block and reports its last irreversible one. -/
def onBlockImported (info : SyncHeader) (lastIrrBlock : ℕ) (lastIrrBlockHash : Hash) :
    BlockChainSync β :=
  let s :=
    if s.lastImportedBlock < info.number then
      { s with lastImportedBlock := info.blockNumber, lastImportedBlockHash := info.hash }
    else s
  if s.lastIrreversibleBlock < lastIrrBlock then
    { s with lastIrreversibleBlock := lastIrrBlock, lastImportedBlockHash := lastIrrBlockHash }
  else s

/-- The queue has room again. -/
def onRoomAvailable : BlockChainSync β := { s with state := .blocks }

/-- Forget the downloads and note that nothing is synced. -/
def resetSync : BlockChainSync β := { s.resetSyncTempData with state := .notSynced }

/-- Start over from the head of the chain. -/
def restartSync : BlockChainSync β :=
  { s.resetSync with
    lastImportedBlock := host.chainNumber
    lastImportedBlockHash := host.currentHash }

/-- Forget the downloads and note that all is done. -/
def completeSync : BlockChainSync β := { s.resetSync with state := .idle }

/-- Note that the sync waits. -/
def pauseSync : BlockChainSync β := { s with state := .waiting }

/-- What happens to the sync while it is locked. New hashes and the loss of a peer do nothing. -/
inductive Event (β : Type) where
  | peerStatus (host : SyncHost β) (peer : PeerStatus)
  | peerBlockHeaders (host : SyncHost β) (peer : Peer) (items : Option (List SyncHeader))
  | peerBlockBodies (host : SyncHost β) (peer : Peer) (items : List (Option β))
  | peerNewBlock (host : SyncHost β) (block : Option NewBlock)
  | blockImported (info : SyncHeader) (lastIrrBlock : ℕ) (lastIrrBlockHash : Hash)
  | roomAvailable
  | restartSync (host : SyncHost β)
  | completeSync
  | pauseSync

/-- What an event does. -/
def handle : Event β → BlockChainSync β → BlockChainSync β
  | .peerStatus host peer, s => s.onPeerStatus host peer
  | .peerBlockHeaders host peer items, s => s.onPeerBlockHeaders facts host peer items
  | .peerBlockBodies host peer items, s => s.onPeerBlockBodies facts host peer items
  | .peerNewBlock host block, s => s.onPeerNewBlock host block
  | .blockImported info lastIrrBlock lastIrrBlockHash, s =>
    s.onBlockImported info lastIrrBlock lastIrrBlockHash
  | .roomAvailable, s => s.onRoomAvailable
  | .restartSync host, s => s.restartSync host
  | .completeSync, s => s.completeSync
  | .pauseSync, s => s.pauseSync

/-- Every event can be handled in every state. -/
def step (event : Event β) (s : BlockChainSync β) : Option (BlockChainSync β) :=
  some (handle facts event s)

end Events

end BlockChainSync

end Etiam
