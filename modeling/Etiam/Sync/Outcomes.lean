import Etiam.Sync.States

/-! What an event can do to the downloads of the sync, told once for each state. -/

namespace Etiam

namespace BlockChainSync

variable {β : Type} {facts : BodyFacts β} {host : SyncHost β} {s t u : BlockChainSync β}

/-- Nothing is downloaded. -/
structure Clear (s : BlockChainSync β) : Prop where
  headers : s.headers = []
  bodies : s.bodies = []
  ids : s.headerIdToNumber = fun _ => none

/-- Nothing has changed of the downloads and of where the search is. -/
structure Kept (s t : BlockChainSync β) : Prop where
  headers : t.headers = s.headers
  bodies : t.bodies = s.bodies
  ids : t.headerIdToNumber = s.headerIdToNumber
  currState : t.currState = s.currState
  start : t.syncStartBlock = s.syncStartBlock
  startHash : t.syncStartBlockHash = s.syncStartBlockHash
  lastIrr : t.syncLastIrrBlock = s.syncLastIrrBlock
  expected : t.expectBlockForFindingCommon = s.expectBlockForFindingCommon
  expectedHash : t.expectBlockHashForFindingCommon = s.expectBlockHashForFindingCommon

/-- Nothing has changed of a sync that stays as it is. -/
theorem Kept.refl (s : BlockChainSync β) : Kept s s := ⟨rfl, rfl, rfl, rfl, rfl, rfl, rfl, rfl, rfl⟩

/-- The marks of a peer are no downloads. -/
theorem kept_clearPeerDownload (s : BlockChainSync β) (peer : Peer) :
    Kept s (s.clearPeerDownload peer) := ⟨rfl, rfl, rfl, rfl, rfl, rfl, rfl, rfl, rfl⟩

/-- Nothing has changed after two steps that change nothing. -/
theorem Kept.trans (first : Kept s t) (second : Kept t u) : Kept s u where
  headers := second.headers.trans first.headers
  bodies := second.bodies.trans first.bodies
  ids := second.ids.trans first.ids
  currState := second.currState.trans first.currState
  start := second.start.trans first.start
  startHash := second.startHash.trans first.startHash
  lastIrr := second.lastIrr.trans first.lastIrr
  expected := second.expected.trans first.expected
  expectedHash := second.expectedHash.trans first.expectedHash

/-- Once the downloads are forgotten there are none. -/
theorem clear_resetSyncTempData : s.resetSyncTempData.Clear := ⟨rfl, rfl, rfl⟩

/-- What leads to the idle state leaves nothing that was downloaded. -/
structure Idled (t : BlockChainSync β) : Prop where
  clear : t.Clear
  idle : t.currState = .idle

/-- Entering the idle state forgets the downloads. -/
theorem idled_enter (busy : s.state ≠ .idle) : (s.enter .idle).Idled := by
  unfold enter
  rw [if_neg busy]
  exact ⟨⟨rfl, rfl, rfl⟩, rfl⟩

/-- So does entering it once more, if they are forgotten before. -/
theorem idled_reset (named : s.state = s.currState) : (s.resetSyncTempData.enter .idle).Idled := by
  unfold enter
  split
  · rename_i idle
    exact ⟨clear_resetSyncTempData, named.symm.trans idle⟩
  · exact ⟨⟨rfl, rfl, rfl⟩, rfl⟩

/-- Headers whose bodies are missing. -/
def Missing (s : BlockChainSync β) (needed : List (SyncHeader × ℕ)) : Prop :=
  ∀ p ∈ needed, Chunks.lookup s.headers p.2 = some p.1 ∧ Sync.haveItem s.bodies p.2 = false

/-- The sync asks for what is missing, or goes idle. -/
inductive Continues (s t : BlockChainSync β) : Prop where
  | idled (idled : t.Idled)
  | kept (kept : Kept s t)
  | noted (needed : List (SyncHeader × ℕ)) (missing : s.Missing needed)
      (kept : Kept { s with headerIdToNumber := needed.foldl noteNeeded s.headerIdToNumber } t)

/-- The bodies that are asked for are missing. -/
theorem missing_neededBodies : s.Missing s.neededBodies := by
  intro p needed
  -- What is asked for are headers of the first chunk that no body stands beside.
  unfold neededBodies at needed
  split at needed
  · rename_i first headers rest split'
    split at needed
    · have member := List.mem_of_mem_take needed
      rw [List.mem_filter, decide_eq_true_eq] at member
      obtain ⟨indexed, -, absent⟩ := member
      obtain ⟨later, found⟩ := List.mem_zipIdx_iff_le_and_getElem?_sub.mp indexed
      refine ⟨?_, absent⟩
      rw [split', Chunks.lookup, if_pos later, found, Option.some_or]
    · cases needed
  · cases needed

/-- Asking a peer notes the bodies asked for, or asks for headers. -/
theorem continues_syncHeadersAndBodiesFrom (peer : Peer) :
    Continues s (s.syncHeadersAndBodiesFrom peer).2 := by
  unfold syncHeadersAndBodiesFrom
  simp only
  split
  · refine .noted s.neededBodies missing_neededBodies ?_
    exact ⟨rfl, rfl, rfl, rfl, rfl, rfl, rfl, rfl, rfl⟩
  · obtain ⟨marks, peers, same⟩ := s.headerPart_marks peer
    rw [same]
    exact .kept ⟨rfl, rfl, rfl, rfl, rfl, rfl, rfl, rfl, rfl⟩

/-- What goes on from the same downloads goes on from these. -/
theorem Continues.after (kept : Kept s u) (continues : Continues u t) : Continues s t := by
  cases continues with
  | idled idled => exact .idled idled
  | kept second => exact .kept (kept.trans second)
  | noted needed missing second =>
    refine .noted needed ?_ ?_
    · intro p member
      rw [← kept.headers, ← kept.bodies]
      exact missing p member
    · refine Kept.trans ?_ second
      exact ⟨kept.headers, kept.bodies, by rw [kept.ids], kept.currState, kept.start,
        kept.startHash, kept.lastIrr, kept.expected, kept.expectedHash⟩

/-- Asking for more asks a peer, or goes idle. -/
theorem continues_syncHeadersAndBodies (named : s.state = s.currState) :
    Continues s (s.syncHeadersAndBodies host) := by
  unfold syncHeadersAndBodies
  split
  · exact .idled (idled_reset named)
  · split
    · exact .kept (.refl s)
    · rename_i peer _
      refine .after (kept_clearPeerDownload s peer) ?_
      simp only
      split
      · exact .idled (idled_reset named)
      · exact continues_syncHeadersAndBodiesFrom peer

/-- So does keeping the download alive. -/
theorem continues_syncKeepAlive (named : s.state = s.currState) :
    Continues s (s.syncKeepAlive host) := by
  unfold syncKeepAlive
  split
  · exact continues_syncHeadersAndBodies named
  · exact .kept (.refl s)

/-- Going on with a search changes no downloads. -/
theorem kept_findingContinueSync : Kept s (s.findingContinueSync host) := by
  unfold findingContinueSync
  split
  · exact .refl s
  · exact kept_clearPeerDownload s _

/-- Neither does keeping it alive. -/
theorem kept_findingKeepAlive : Kept s (s.findingKeepAlive host) := by
  unfold findingKeepAlive
  split
  · exact kept_findingContinueSync
  · exact .refl s

/-- Where nothing changes nothing is downloaded. -/
theorem Clear.kept (clear : s.Clear) (kept : Kept s t) : t.Clear :=
  ⟨kept.headers.trans clear.headers, kept.bodies.trans clear.bodies, kept.ids.trans clear.ids⟩

/-- Where nothing changes the sync stays idle. -/
theorem Idled.kept (idled : s.Idled) (kept : Kept s t) : t.Idled :=
  ⟨idled.clear.kept kept, kept.currState.trans idled.idle⟩

/-- Without headers there are no bodies to ask for. -/
theorem Clear.continues (clear : s.Clear) (continues : Continues s t) : t.Clear := by
  cases continues with
  | idled idled => exact idled.clear
  | kept kept => exact clear.kept kept
  | noted needed missing kept =>
    have none : needed = [] := by
      refine List.eq_nil_iff_forall_not_mem.mpr fun p member => ?_
      have found := (missing p member).1
      rw [clear.headers] at found
      cases found
    rw [none] at kept
    exact clear.kept kept

/-- Unless the sync goes idle, the headers and the start stay as they are. -/
theorem Continues.same (continues : Continues s t) :
    t.Idled ∨ t.headers = s.headers ∧ t.currState = s.currState ∧
      t.syncStartBlock = s.syncStartBlock ∧ t.syncStartBlockHash = s.syncStartBlockHash ∧
      t.syncLastIrrBlock = s.syncLastIrrBlock := by
  cases continues with
  | idled idled => exact Or.inl idled
  | kept kept =>
    exact Or.inr ⟨kept.headers, kept.currState, kept.start, kept.startHash, kept.lastIrr⟩
  | noted needed missing kept =>
    exact Or.inr ⟨kept.headers, kept.currState, kept.start, kept.startHash, kept.lastIrr⟩

/-- An idle sync that asks for more stays idle. -/
theorem Idled.continues (idled : s.Idled) (continues : Continues s t) : t.Idled := by
  obtain idle | same := continues.same
  · exact idle
  · exact ⟨idled.clear.continues continues, same.2.1.trans idled.idle⟩

section Finding

variable {peer : Peer} {items : Option (List SyncHeader)}

/-- The header of a packet that is the expected one, new, and of no block that is known. -/
def accepted (host : SyncHost β) (s : BlockChainSync β) :
    Option (List SyncHeader) → Option SyncHeader
  | some [h] =>
    if s.isExpectBlockHeader h = true ∧ Sync.haveItem s.headers h.blockNumber = false ∧
        isCommon host h.hash = false then
      some h
    else none
  | _ => none

/-- What a header packet can do to the search for a common block. -/
inductive FindingOutcome (facts : BodyFacts β) (host : SyncHost β)
    (items : Option (List SyncHeader)) (s t : BlockChainSync β) : Prop where
  | idled (idled : t.Idled)
  | kept (passed : s.accepted host items = none) (kept : Kept s t)
  /-- The header is stored, and the search goes on below it. -/
  | stored (h : SyncHeader) (single : items = some [h]) (expected : s.isExpectBlockHeader h = true)
      (high : s.syncLastIrrBlock < h.blockNumber)
      (absent : Sync.haveItem s.headers h.blockNumber = false)
      (unknown : isCommon host h.hash = false)
      (kept : Kept ((s.storeHeader facts h).moveToNextCommonBlock host) t)
  /-- The header is that of a common block, and the blocks after it are downloaded. -/
  | found (h : SyncHeader) (single : items = some [h]) (expected : s.isExpectBlockHeader h = true)
      (high : s.syncLastIrrBlock ≤ h.blockNumber)
      (absent : Sync.haveItem s.headers h.blockNumber = false)
      (common : isCommon host h.hash = true) (some : s.headers ≠ [])
      (continues : Continues
        { s.setStart h.blockNumber h.hash with state := .syncBlocks, currState := .syncBlocks } t)

/-- The marks of a peer have no part in the search. -/
theorem kept_search (peer : Peer) (h : SyncHeader) :
    Kept ((s.storeHeader facts h).moveToNextCommonBlock host)
      (((s.clearPeerDownload peer).storeHeader facts h).moveToNextCommonBlock host) := by
  unfold storeHeader
  split <;> exact ⟨rfl, rfl, rfl, rfl, rfl, rfl, rfl, rfl, rfl⟩

/-- What the expected header does to the search. -/
theorem finding_onExpected (peer : Peer) (h : SyncHeader)
    (noted : s.state = .findingCommonBlock) (expected : s.isExpectBlockHeader h = true) :
    FindingOutcome facts host (some [h]) s
      ((s.clearPeerDownload peer).findingOnExpected facts host h) := by
  -- One case for each way through the source: below the last irreversible block, stored already,
  -- common with nothing to download, common, down at the last irreversible block, and stored.
  have busy : s.state ≠ .idle := by simp [noted]
  unfold findingOnExpected
  simp only
  split
  · exact .idled (idled_enter busy)
  rename_i high
  split
  · rename_i present
    have present : Sync.haveItem s.headers h.blockNumber = true := present
    refine .kept ?_ ((kept_clearPeerDownload s peer).trans kept_findingContinueSync)
    exact if_neg (by simp [present])
  rename_i absent
  have absent : Sync.haveItem s.headers h.blockNumber = false := Bool.eq_false_of_not_eq_true absent
  split
  · rename_i common
    split
    · exact .idled (idled_enter busy)
    · rename_i some
      have some : s.headers ≠ [] := fun none => some (List.isEmpty_iff.mpr none)
      refine .found h rfl expected (not_lt.mp high) absent common some ?_
      unfold switchState
      rw [if_pos ⟨rfl, by simp [setStart, clearPeerDownload, noted]⟩]
      refine .after ?_ (continues_syncHeadersAndBodies rfl)
      exact ⟨rfl, rfl, rfl, rfl, rfl, rfl, rfl, rfl, rfl⟩
  · rename_i unknown
    have frame : ((s.clearPeerDownload peer).storeHeader facts h).resetSyncTempData =
        s.resetSyncTempData := by simp
    have state : ((s.clearPeerDownload peer).storeHeader facts h).state = s.state :=
      congrArg (fun u => u.state) frame
    have lastIrr : ((s.clearPeerDownload peer).storeHeader facts h).syncLastIrrBlock =
        s.syncLastIrrBlock := congrArg (fun u => u.syncLastIrrBlock) frame
    split
    · exact .idled (idled_enter (by rwa [state]))
    · rename_i other
      rw [lastIrr] at other
      refine .stored h rfl expected (lt_of_le_of_ne (not_lt.mp high) (Ne.symm other)) absent
        (by simpa using unknown) ?_
      exact (kept_search peer h).trans kept_findingContinueSync

/-- What another header does to it. -/
theorem finding_onUnexpected (peer : Peer) {h : SyncHeader} (noted : s.state = .findingCommonBlock)
    (unexpected : ¬ s.isExpectBlockHeader h = true) : FindingOutcome facts host (some [h]) s
      ((s.clearPeerDownload peer).findingOnUnexpected host) := by
  have busy : s.state ≠ .idle := by simp [noted]
  unfold findingOnUnexpected
  split
  · exact .idled (idled_enter busy)
  · refine .kept (if_neg (by simp [unexpected])) (Kept.trans ?_ kept_findingContinueSync)
    exact ⟨rfl, rfl, rfl, rfl, rfl, rfl, rfl, rfl, rfl⟩

variable (host s) in
/-- Either time is up and the sync is idle, or nothing has happened. -/
theorem updateTimeout_cases (noted : s.state ≠ .idle) :
    (∃ t, s.updateTimeout host = (true, t) ∧ t.Idled) ∨ s.updateTimeout host = (false, s) := by
  unfold updateTimeout
  split
  · exact Or.inl ⟨_, rfl, idled_enter noted⟩
  · exact Or.inr rfl

/-- What a packet does to the search. -/
theorem finding_onPeerBlockHeaders (noted : s.state = .findingCommonBlock)
    (finding : s.currState = .findingCommonBlock) :
    FindingOutcome facts host items s (s.onPeerBlockHeaders facts host peer items) := by
  -- Unless time is up, only a packet of one header that is the expected one gets anywhere.
  unfold onPeerBlockHeaders
  rw [finding]
  simp only
  obtain ⟨t, late, idled⟩ | early := updateTimeout_cases host s (by simp [noted])
  · rw [late]
    exact .idled idled
  rw [early]
  change FindingOutcome facts host items s (s.findingOnPeerBlockHeaders facts host peer items)
  unfold findingOnPeerBlockHeaders
  split
  · exact .kept rfl (.refl s)
  · simp only
    split
    · exact .kept rfl (kept_clearPeerDownload s peer)
    · rename_i h
      split
      · rename_i expected
        exact finding_onExpected peer h noted expected
      · rename_i unexpected
        exact finding_onUnexpected peer noted unexpected
    · rename_i items _ several
      refine .kept ?_ ((kept_clearPeerDownload s peer).trans kept_findingContinueSync)
      unfold accepted
      split
      · rename_i h single
        exact absurd (Option.some.inj single) (several h)
      · rfl

/-- Other events end the search or leave it. -/
theorem finding_others (noted : s.state = .findingCommonBlock) :
    ((s.updateTimeout host).2.findingKeepAlive host).Idled ∨
      Kept s ((s.updateTimeout host).2.findingKeepAlive host) := by
  obtain ⟨t, late, idled⟩ | early := updateTimeout_cases host s (by simp [noted])
  · rw [late]
    exact Or.inl (idled.kept kept_findingKeepAlive)
  · rw [early]
    exact Or.inr kept_findingKeepAlive

end Finding

section Downloading

variable {peer : Peer}

variable (host) in
/-- Once the items of a packet are stored, blocks are put together and more is asked for, unless the
sync goes idle. -/
theorem sync_finishPacket (stored : t.resetSyncTempData = s.resetSyncTempData)
    (noted : s.state = .syncBlocks) (curr : s.currState = .syncBlocks) :
    (t.finishPacket host).Idled ∨ t.headers ≠ [] ∧ (t.collectBlocks host).1 ≠ .failure ∧
      Continues (t.collectBlocks host).2 (t.finishPacket host) := by
  have busy : t.state = .syncBlocks := (congrArg (·.state) stored).trans noted
  have handles : t.currState = .syncBlocks := (congrArg (·.currState) stored).trans curr
  unfold finishPacket
  split
  · exact Or.inl (idled_enter (by simp [busy]))
  rename_i some
  have some : t.headers ≠ [] := fun none => some (List.isEmpty_iff.mpr none)
  -- Putting blocks together leaves the state, so the sync can go idle or on from there.
  obtain ⟨number, hash, frame⟩ := reset_collectBlocks host t
  have state : (t.collectBlocks host).2.state = .syncBlocks := (congrArg (·.state) frame).trans busy
  have currState : (t.collectBlocks host).2.currState = .syncBlocks :=
    (congrArg (·.currState) frame).trans handles
  split
  · rename_i ended
    rw [ended] at state
    exact Or.inl (idled_enter (state.trans_ne (by decide)))
  · rename_i result u succeeded ended
    rw [ended] at state currState
    split
    · exact Or.inl (idled_enter (state.trans_ne (by decide)))
    · right
      rw [ended]
      exact ⟨some, succeeded, continues_syncHeadersAndBodies (state.trans currState.symm)⟩

variable (facts host peer) in
/-- A packet of headers ends the download, is no list, or is stored. -/
theorem sync_onPeerBlockHeaders (items : Option (List SyncHeader)) (noted : s.state = .syncBlocks)
    (curr : s.currState = .syncBlocks) :
    (s.onPeerBlockHeaders facts host peer items).Idled ∨
      Kept s (s.onPeerBlockHeaders facts host peer items) ∨
      ∃ list u, items = some list ∧
        (s.clearPeerDownload peer).storeHeaders facts list = (true, u) ∧ u.headers ≠ [] ∧
        (u.collectBlocks host).1 ≠ .failure ∧
        Continues (u.collectBlocks host).2 (s.onPeerBlockHeaders facts host peer items) := by
  unfold onPeerBlockHeaders
  rw [curr]
  simp only
  obtain ⟨t, late, idled⟩ | early := updateTimeout_cases host s (by simp [noted])
  · rw [late]
    exact Or.inl idled
  rw [early]
  simp only
  unfold syncOnPeerBlockHeaders
  split
  · exact Or.inr (Or.inl (kept_clearPeerDownload s peer))
  · rename_i list
    have frame := reset_storeHeaders facts (s.clearPeerDownload peer) list
    rw [reset_clearPeerDownload] at frame
    split
    · rename_i u ended
      rw [ended] at frame
      have state : u.state = s.state := congrArg (fun v => v.state) frame
      exact Or.inl (idled_enter (by simp [state, noted]))
    · rename_i u ended
      rw [ended] at frame
      obtain idled | ⟨some, succeeded, continues⟩ := sync_finishPacket host frame noted curr
      · exact Or.inl idled
      · exact Or.inr (Or.inr ⟨list, u, rfl, ended, some, succeeded, continues⟩)

variable (facts host peer) in
/-- A packet of bodies is stored; if all of it can be read, it goes on as for headers. -/
theorem sync_onPeerBlockBodies (items : List (Option β)) (noted : s.state = .syncBlocks)
    (curr : s.currState = .syncBlocks) :
    (s.onPeerBlockBodies facts host peer items).Idled ∨
      ∃ read u, (s.clearPeerDownload peer).storeBodies facts items = (read, u) ∧
        (s.onPeerBlockBodies facts host peer items = u ∨ u.headers ≠ [] ∧
          (u.collectBlocks host).1 ≠ .failure ∧
          Continues (u.collectBlocks host).2 (s.onPeerBlockBodies facts host peer items)) := by
  unfold onPeerBlockBodies
  rw [curr]
  simp only
  obtain ⟨t, late, idled⟩ | early := updateTimeout_cases host s (by simp [noted])
  · rw [late]
    exact Or.inl idled
  rw [early]
  simp only
  unfold syncOnPeerBlockBodies
  have frame := reset_storeBodies facts (s.clearPeerDownload peer) items
  rw [reset_clearPeerDownload] at frame
  split
  · rename_i u ended
    exact Or.inr ⟨false, u, ended, Or.inl rfl⟩
  · rename_i u ended
    rw [ended] at frame
    obtain idled | collected := sync_finishPacket host frame noted curr
    · exact Or.inl idled
    · exact Or.inr ⟨true, u, ended, Or.inr collected⟩

/-- Other events keep the download alive. -/
theorem sync_others (noted : s.state = .syncBlocks) (curr : s.currState = .syncBlocks) :
    Continues s ((s.updateTimeout host).2.syncKeepAlive host) := by
  have named : s.Named := ⟨noted.trans curr.symm, by simp [curr]⟩
  have timed : (s.updateTimeout host).2.Named := named.moves (moves_updateTimeout host s)
  obtain ⟨t, late, idled⟩ | early := updateTimeout_cases host s (by simp [noted])
  · rw [late] at timed ⊢
    exact .idled (idled.continues (continues_syncKeepAlive timed.named))
  · rw [early] at timed ⊢
    exact continues_syncKeepAlive timed.named

end Downloading

section Quiet

section

variable (clear : s.Clear)

include clear

/-- Entering a state stores nothing. -/
theorem Clear.enter (next : SyncState) : (s.enter next).Clear := by
  unfold BlockChainSync.enter
  split
  · exact clear
  · split
    · exact ⟨rfl, rfl, rfl⟩
    · exact ⟨rfl, rfl, rfl⟩
    · exact ⟨clear.headers, clear.bodies, clear.ids⟩
    · exact ⟨clear.headers, clear.bodies, clear.ids⟩
    · exact ⟨clear.headers, clear.bodies, clear.ids⟩

/-- Starting a search stores nothing. -/
theorem Clear.startFinding (number : ℕ) (hash latestHash : Hash) :
    (s.startFinding host number hash latestHash).Clear := by
  refine Clear.enter ?_ .findingCommonBlock
  exact ⟨clear.headers, clear.bodies, clear.ids⟩

/-- A status stores nothing in the idle state. -/
theorem Clear.idleOnPeerStatus {peer : PeerStatus} : (s.idleOnPeerStatus host peer).Clear := by
  unfold BlockChainSync.idleOnPeerStatus
  split_ifs
  · exact clear
  · exact clear
  · exact clear
  · refine Clear.startFinding ?_ _ _ _
    exact ⟨clear.headers, clear.bodies, clear.ids⟩
  · exact clear.startFinding _ _ _
  · exact clear

/-- Neither does a new block. -/
theorem Clear.idleOnPeerNewBlock {block : NewBlock} : (s.idleOnPeerNewBlock host block).Clear := by
  unfold BlockChainSync.idleOnPeerNewBlock
  simp only
  split_ifs
  · exact clear
  · exact clear
  · exact clear.startFinding _ _ _
  · exact clear
  · refine Clear.enter ?_ .waiting
    exact ⟨clear.headers, clear.bodies, clear.ids⟩
  · unfold idleOnImport
    split
    · split
      · exact ⟨clear.headers, clear.bodies, clear.ids⟩
      · exact clear
    · exact Clear.startFinding (by split <;> [exact clear_resetSyncTempData; exact clear]) _ _ _
    · exact Clear.startFinding (by split <;> [exact clear_resetSyncTempData; exact clear]) _ _ _
    · exact clear_resetSyncTempData
    · exact clear

/-- Neither does a new block in the waiting state. -/
theorem Clear.waitingOnPeerNewBlock {block : NewBlock} :
    (s.waitingOnPeerNewBlock host block).Clear := by
  unfold BlockChainSync.waitingOnPeerNewBlock
  split_ifs
  · exact clear
  · exact clear
  · refine Clear.startFinding ?_ _ _ _
    exact ⟨clear.headers, clear.bodies, clear.ids⟩

/-- An event that comes from a peer or the chain, and not from the code that holds the sync. -/
def Event.plain : Event β → Bool
  | .roomAvailable | .restartSync _ | .completeSync | .pauseSync => false
  | _ => true

/-- In other states than those that store headers nothing is stored. -/
theorem Clear.handle {event : Event β} (plain : event.plain = true)
    (searching : s.currState ≠ .findingCommonBlock) (downloading : s.currState ≠ .syncBlocks) :
    (handle facts event s).Clear := by
  -- The two states that store anything are excluded.
  cases event with
  | peerStatus host peer =>
    change (s.onPeerStatus host peer).Clear
    unfold onPeerStatus
    split
    · exact clear.idleOnPeerStatus
    · split
      · exact clear.enter .idle
      · exact clear
    · exact absurd ‹_› searching
    · exact absurd ‹_› downloading
    · exact clear
  | peerBlockHeaders host peer items =>
    change (s.onPeerBlockHeaders facts host peer items).Clear
    unfold onPeerBlockHeaders
    split
    · split
      · exact clear.enter .idle
      · exact clear
    · exact absurd ‹_› searching
    · exact absurd ‹_› downloading
    · exact clear
  | peerBlockBodies host peer items =>
    change (s.onPeerBlockBodies facts host peer items).Clear
    unfold onPeerBlockBodies
    split
    · split
      · exact clear.enter .idle
      · exact clear
    · exact absurd ‹_› searching
    · exact absurd ‹_› downloading
    · exact clear
  | peerNewBlock host block =>
    change (s.onPeerNewBlock host block).Clear
    unfold onPeerNewBlock
    split
    · split
      · exact clear
      · exact clear.idleOnPeerNewBlock
    · split
      · split
        · exact clear
        · exact clear.waitingOnPeerNewBlock
      · exact clear
    · exact absurd ‹_› searching
    · exact absurd ‹_› downloading
    · exact clear
  | blockImported info lastIrrBlock lastIrrBlockHash =>
    change (s.onBlockImported info lastIrrBlock lastIrrBlockHash).Clear
    unfold onBlockImported
    simp only
    split_ifs <;> exact ⟨clear.headers, clear.bodies, clear.ids⟩
  | roomAvailable => cases plain
  | restartSync host => cases plain
  | completeSync => cases plain
  | pauseSync => cases plain

end

/-- A block that is imported changes no downloads. -/
theorem kept_onBlockImported (info : SyncHeader) (lastIrrBlock : ℕ) (lastIrrBlockHash : Hash) :
    Kept s (s.onBlockImported info lastIrrBlock lastIrrBlockHash) := by
  unfold onBlockImported
  simp only
  split_ifs <;> exact ⟨rfl, rfl, rfl, rfl, rfl, rfl, rfl, rfl, rfl⟩

end Quiet

section Events

/-- The noted state is the one that handles events, and only two of them keep downloads. -/
structure Orderly (s : BlockChainSync β) : Prop where
  named : s.Named
  clear : s.currState ≠ .findingCommonBlock → s.currState ≠ .syncBlocks → s.Clear

/-- The header that an event brings to the search and that it accepts. -/
def accepts (s : BlockChainSync β) : Event β → Option SyncHeader
  | .peerBlockHeaders host _ items =>
    if s.currState = .findingCommonBlock then s.accepted host items else none
  | _ => none

/-- What an event can do to the downloads. -/
inductive Outcome (facts : BodyFacts β) (event : Event β) (s t : BlockChainSync β) : Prop where
  /-- All is forgotten, and a search is over then. -/
  | clear (clear : t.Clear) (idle : s.currState = .findingCommonBlock → t.currState = .idle)
  | continues (passed : s.accepts event = none) (continues : Continues s t)
  | searched (host : SyncHost β) (peer : Peer) (items : Option (List SyncHeader))
      (received : event = .peerBlockHeaders host peer items)
      (finding : s.currState = .findingCommonBlock) (outcome : FindingOutcome facts host items s t)
  | headers (host : SyncHost β) (peer : Peer) (items : List SyncHeader) (u : BlockChainSync β)
      (received : event = .peerBlockHeaders host peer (some items))
      (curr : s.currState = .syncBlocks)
      (ended : (s.clearPeerDownload peer).storeHeaders facts items = (true, u))
      (some : u.headers ≠ []) (succeeded : (u.collectBlocks host).1 ≠ .failure)
      (continues : Continues (u.collectBlocks host).2 t)
  | bodies (host : SyncHost β) (peer : Peer) (items : List (Option β)) (read : Bool)
      (u : BlockChainSync β) (received : event = .peerBlockBodies host peer items)
      (curr : s.currState = .syncBlocks)
      (ended : (s.clearPeerDownload peer).storeBodies facts items = (read, u))
      (result : t = u ∨ u.headers ≠ [] ∧ (u.collectBlocks host).1 ≠ .failure ∧
        Continues (u.collectBlocks host).2 t)

variable {event : Event β}

/-- Other events of a search have an outcome. -/
theorem Outcome.of_finding_others (passed : s.accepts event = none)
    (others : t.Idled ∨ Kept s t) : Outcome facts event s t := by
  obtain idled | kept := others
  · exact .clear idled.clear fun _ => idled.idle
  · exact .continues passed (.kept kept)

variable (facts) in
/-- Every plain event of an orderly sync has an outcome. -/
theorem Orderly.outcome (orderly : s.Orderly) (plain : event.plain = true) :
    Outcome facts event s (handle facts event s) := by
  -- The search, then the download, then the states in which nothing is downloaded.
  by_cases finding : s.currState = .findingCommonBlock
  · have noted := orderly.named.named.trans finding
    cases event with
    | peerStatus host peer =>
      change Outcome facts _ s (s.onPeerStatus host peer)
      unfold onPeerStatus
      rw [finding]
      exact .of_finding_others rfl (finding_others noted)
    | peerBlockHeaders host peer items =>
      exact .searched host peer items rfl finding (finding_onPeerBlockHeaders noted finding)
    | peerBlockBodies host peer items =>
      change Outcome facts _ s (s.onPeerBlockBodies facts host peer items)
      unfold onPeerBlockBodies
      rw [finding]
      exact .of_finding_others rfl (finding_others noted)
    | peerNewBlock host block =>
      change Outcome facts _ s (s.onPeerNewBlock host block)
      unfold onPeerNewBlock
      rw [finding]
      exact .of_finding_others rfl (finding_others noted)
    | blockImported info lastIrrBlock lastIrrBlockHash =>
      exact .continues rfl (.kept (kept_onBlockImported info lastIrrBlock lastIrrBlockHash))
    | _ => cases plain
  by_cases curr : s.currState = .syncBlocks
  · have noted := orderly.named.named.trans curr
    cases event with
    | peerStatus host peer =>
      change Outcome facts _ s (s.onPeerStatus host peer)
      unfold onPeerStatus
      rw [curr]
      exact .continues rfl (sync_others noted curr)
    | peerBlockHeaders host peer items =>
      obtain idled | kept | ⟨list, u, rfl, ended, some, succeeded, continues⟩ :=
        sync_onPeerBlockHeaders facts host peer items noted curr
      · exact .clear idled.clear fun _ => idled.idle
      · exact .continues (if_neg finding) (.kept kept)
      · exact .headers host peer list u rfl curr ended some succeeded continues
    | peerBlockBodies host peer items =>
      obtain idled | ⟨read, u, ended, result⟩ :=
        sync_onPeerBlockBodies facts host peer items noted curr
      · exact .clear idled.clear fun _ => idled.idle
      · exact .bodies host peer items read u rfl curr ended result
    | peerNewBlock host block =>
      change Outcome facts _ s (s.onPeerNewBlock host block)
      unfold onPeerNewBlock
      rw [curr]
      exact .continues rfl (sync_others noted curr)
    | blockImported info lastIrrBlock lastIrrBlockHash =>
      exact .continues rfl (.kept (kept_onBlockImported info lastIrrBlock lastIrrBlockHash))
    | _ => cases plain
  · exact .clear ((orderly.clear finding curr).handle plain finding curr)
      fun searching => absurd searching finding

/-- What goes on in another state has no downloads, if it had none before. -/
theorem Orderly.continues_clear (continues : Continues s t)
    (clear : s.currState ≠ .findingCommonBlock → s.currState ≠ .syncBlocks → s.Clear)
    (finding : t.currState ≠ .findingCommonBlock) (curr : t.currState ≠ .syncBlocks) : t.Clear := by
  obtain idled | ⟨-, same, -⟩ := continues.same
  · exact idled.clear
  · rw [same] at finding curr
    exact (clear finding curr).continues continues

/-- A plain event writes no note. -/
theorem plain_naming (plain : event.plain = true) : s.Naming event := by
  cases event with
  | peerStatus | peerBlockHeaders | peerBlockBodies | peerNewBlock | blockImported => trivial
  | roomAvailable | restartSync | completeSync | pauseSync => cases plain

/-- Putting blocks together leaves the state. -/
theorem currState_collectBlocks (host : SyncHost β) (s : BlockChainSync β) :
    (s.collectBlocks host).2.currState = s.currState := by
  obtain ⟨number, hash, frame⟩ := reset_collectBlocks host s
  exact congrArg (fun u => u.currState) frame

/-- After an event only the two states keep downloads. -/
theorem Outcome.clear_others (orderly : s.Orderly)
    (outcome : Outcome facts event s t) (finding : t.currState ≠ .findingCommonBlock)
    (curr : t.currState ≠ .syncBlocks) : t.Clear := by
  -- An outcome that keeps downloads stays in one of the two states.
  cases outcome with
  | clear clear idle => exact clear
  | continues passed continues => exact Orderly.continues_clear continues orderly.clear finding curr
  | searched host peer items received searching outcome =>
    cases outcome with
    | idled idled => exact idled.clear
    | kept passed kept => exact absurd (kept.currState.trans searching) finding
    | stored h single expected high absent unknown kept =>
      have frame : (s.storeHeader facts h).resetSyncTempData = s.resetSyncTempData :=
        reset_storeHeader h
      have same : (s.storeHeader facts h).currState = s.currState :=
        congrArg (fun u => u.currState) frame
      exact absurd (kept.currState.trans (same.trans searching)) finding
    | found h single expected high absent common some continues =>
      exact Orderly.continues_clear continues (fun _ other => absurd rfl other) finding curr
  | headers host peer items u received downloading ended some succeeded continues =>
    have frame := reset_storeHeaders facts (s.clearPeerDownload peer) items
    rw [ended] at frame
    have same : (u.collectBlocks host).2.currState = .syncBlocks := by
      rw [currState_collectBlocks]
      exact (congrArg (fun v => v.currState) frame).trans downloading
    exact Orderly.continues_clear continues (fun _ other => absurd same other) finding curr
  | bodies host peer items read u received downloading ended result =>
    have frame := reset_storeBodies facts (s.clearPeerDownload peer) items
    rw [ended] at frame
    have stays : u.currState = .syncBlocks :=
      (congrArg (fun v => v.currState) frame).trans downloading
    obtain rfl | ⟨some, succeeded, continues⟩ := result
    · exact absurd stays curr
    · have same : (u.collectBlocks host).2.currState = .syncBlocks := by
        rw [currState_collectBlocks, stays]
      exact Orderly.continues_clear continues (fun _ other => absurd same other) finding curr

/-- Plain events keep a sync orderly. -/
theorem Orderly.handle (orderly : s.Orderly) (plain : event.plain = true) :
    (handle facts event s).Orderly :=
  ⟨orderly.named.step (plain_naming plain) rfl,
    (orderly.outcome facts plain).clear_others orderly⟩

/-- A sync starts orderly. -/
theorem orderly_start (number : ℕ) (hash : Hash) (lastIrrBlock : ℕ) (lastIrrBlockHash : Hash) :
    (start number hash lastIrrBlock lastIrrBlockHash : BlockChainSync β).Orderly :=
  ⟨named_start number hash lastIrrBlock lastIrrBlockHash, fun _ _ => ⟨rfl, rfl, rfl⟩⟩

end Events

end BlockChainSync

end Etiam
