import Etiam.Sync.States

/-! Whether the numbers and the hashes that the sync keeps of blocks belong together. -/

namespace Etiam

namespace BlockChainSync

variable {β : Type} {facts : BodyFacts β} {host : SyncHost β} {s t : BlockChainSync β}

/-- The last imported and the last irreversible block. -/
def lastBlocks (s : BlockChainSync β) : ℕ × Hash × ℕ × Hash :=
  (s.lastImportedBlock, s.lastImportedBlockHash, s.lastIrreversibleBlock,
    s.lastIrreversibleBlockHash)

section Frames

theorem lastBlocks_enter (next : SyncState) : (s.enter next).lastBlocks = s.lastBlocks := by
  unfold enter
  split
  · rfl
  · split <;> rfl

theorem Moves.lastBlocks (moves : Moves s t) : t.lastBlocks = s.lastBlocks := by
  induction moves with
  | @downloads s t frame =>
    change t.resetSyncTempData.lastBlocks = s.resetSyncTempData.lastBlocks
    rw [frame]
  | search => rfl
  | idle s => exact lastBlocks_enter .idle
  | syncBlocks => rfl
  | trans _ _ first second => exact second.trans first

theorem Moves.finding (moves : Moves s t) (finding : t.currState = .findingCommonBlock) :
    s.currState = .findingCommonBlock := by
  induction moves with
  | @downloads s t frame =>
    have curr : t.currState = s.currState := congrArg (·.currState) frame
    rwa [← curr]
  | search => exact finding
  | idle s =>
    unfold enter at finding
    split at finding
    · exact finding
    · cases finding
  | syncBlocks => cases finding
  | trans _ _ first second => exact first (second finding)

end Frames

/-- What an event in the idle or the waiting state may do: start a sync after a given block. -/
structure Opens (number : ℕ) (hash : Hash) (s t : BlockChainSync β) : Prop where
  lastBlocks : t.lastBlocks = s.lastBlocks
  started : t.currState = .findingCommonBlock →
    t.syncStartBlock = number ∧ t.syncStartBlockHash = hash

variable {number : ℕ} {hash latestHash : Hash}

theorem Opens.refl (other : s.currState ≠ .findingCommonBlock) : Opens number hash s s :=
  ⟨rfl, fun finding => absurd finding other⟩

theorem opens_startFinding (same : t.lastBlocks = s.lastBlocks) :
    Opens number hash s (t.startFinding host number hash latestHash) := by
  refine ⟨(lastBlocks_enter _).trans same, fun _ => ?_⟩
  change (enter _ _).syncStartBlock = _ ∧ (enter _ _).syncStartBlockHash = _
  unfold enter
  split <;> exact ⟨rfl, rfl⟩

variable (host) in
theorem opens_idleOnPeerStatus (peer : PeerStatus) (idle : s.currState = .idle) :
    Opens s.lastImportedBlock s.lastImportedBlockHash s (s.idleOnPeerStatus host peer) := by
  have other : s.currState ≠ .findingCommonBlock := by simp [idle]
  unfold idleOnPeerStatus
  split_ifs
  · exact .refl other
  · exact .refl other
  · exact .refl other
  · exact opens_startFinding rfl
  · exact opens_startFinding rfl
  · exact .refl other

variable (host) in
theorem idleOnPeerNewBlock_cases (block : NewBlock) (idle : s.currState = .idle) :
    Opens s.lastImportedBlock s.lastImportedBlockHash s (s.idleOnPeerNewBlock host block) ∨
      s.idleOnPeerNewBlock host block = { s with
        lastImportedBlock := block.header.blockNumber
        lastImportedBlockHash := block.header.hash } := by
  have other : s.currState ≠ .findingCommonBlock := by simp [idle]
  unfold idleOnPeerNewBlock
  simp only
  split_ifs
  · exact Or.inl (.refl other)
  · exact Or.inl (.refl other)
  · exact Or.inl (opens_startFinding rfl)
  · exact Or.inl (.refl other)
  · left
    refine ⟨lastBlocks_enter .waiting, fun finding => ?_⟩
    change (enter _ .waiting).currState = _ at finding
    unfold enter at finding
    split at finding
    · exact absurd finding other
    · cases finding
  · unfold idleOnImport
    split
    · split
      · exact Or.inr rfl
      · exact Or.inl (.refl other)
    · left
      cases block.tooManyUnknown <;> exact opens_startFinding rfl
    · left
      cases block.tooManyUnknown <;> exact opens_startFinding rfl
    · exact Or.inl ⟨rfl, fun finding => absurd finding other⟩
    · exact Or.inl (.refl other)

variable (host) in
theorem opens_waitingOnPeerNewBlock (block : NewBlock) (waiting : s.currState = .waiting) :
    Opens s.lastIrreversibleBlock (host.numberHash s.lastIrreversibleBlock) s
      (s.waitingOnPeerNewBlock host block) := by
  have other : s.currState ≠ .findingCommonBlock := by simp [waiting]
  unfold waitingOnPeerNewBlock
  split_ifs
  · exact .refl other
  · exact .refl other
  · exact opens_startFinding rfl

/-- The sync with what the chain has reported as irreversible, the latest report first. -/
structure Watched (β : Type) where
  sync : BlockChainSync β
  reported : List (ℕ × Hash)

namespace Watched

variable (facts) in
def step (event : Event β) (w : Watched β) : Option (Watched β) :=
  some {
    sync := handle facts event w.sync
    reported :=
      match event with
      | .blockImported _ lastIrrBlock lastIrrBlockHash =>
        (lastIrrBlock, lastIrrBlockHash) :: w.reported
      | _ => w.reported }

/-- The sync at the start, which is told the last irreversible block. -/
def start (number : ℕ) (hash : Hash) (lastIrrBlock : ℕ) (lastIrrBlockHash : Hash) : Watched β where
  sync := .start number hash lastIrrBlock lastIrrBlockHash
  reported := [(lastIrrBlock, lastIrrBlockHash)]

variable (numberOf : Hash → ℕ)

/-- A header has the number that belongs to its hash, and one that the sync can hold. -/
def Genuine (h : SyncHeader) : Prop := numberOf h.hash = h.number ∧ h.number < 2 ^ 32

/-- The hashes in an event belong to the numbers that come with them, and no irreversible block is
reported but the one that is known or earlier ones. -/
def Fits (w : Watched β) : Event β → Prop
  | .peerNewBlock host (some block) => Genuine numberOf block.header ∧
    (w.sync.currState = .waiting →
      numberOf (host.numberHash w.sync.lastIrreversibleBlock) = w.sync.lastIrreversibleBlock)
  | .blockImported info lastIrrBlock lastIrrBlockHash => Genuine numberOf info ∧
    (lastIrrBlock < w.sync.lastIrreversibleBlock ∨
      (lastIrrBlock, lastIrrBlockHash) =
        (w.sync.lastIrreversibleBlock, w.sync.lastIrreversibleBlockHash))
  | .restartSync host => numberOf host.currentHash = host.chainNumber
  | _ => True

/-- The last imported block has the number that is kept with it, and the last irreversible one the
hash that was last reported for its number. -/
structure Paired (w : Watched β) : Prop where
  imported : numberOf w.sync.lastImportedBlockHash = w.sync.lastImportedBlock
  irreversible : w.reported.find? (·.1 = w.sync.lastIrreversibleBlock) =
    some (w.sync.lastIrreversibleBlock, w.sync.lastIrreversibleBlockHash)

variable {numberOf} {w v : Watched β}

theorem Paired.keep (paired : w.Paired numberOf)
    (same : v.sync.lastBlocks = w.sync.lastBlocks) (reported : v.reported = w.reported) :
    v.Paired numberOf := by
  simp only [lastBlocks, Prod.mk.injEq] at same
  obtain ⟨number, hash, irreversible, irreversibleHash⟩ := same
  constructor
  · rw [number, hash]
    exact paired.imported
  · rw [reported, irreversible, irreversibleHash]
    exact paired.irreversible

/-- A sync that starts does it after a block with the number that is kept with its hash. -/
def Starts (numberOf : Hash → ℕ) (s t : BlockChainSync β) : Prop :=
  s.currState ≠ .findingCommonBlock → t.currState = .findingCommonBlock →
    numberOf t.syncStartBlockHash = t.syncStartBlock

theorem starts_moves (moves : Moves s t) : Starts numberOf s t :=
  fun other finding => absurd (moves.finding finding) other

theorem starts_opens {number : ℕ} {hash : Hash} (opens : Opens number hash s t)
    (named : numberOf hash = number) : Starts numberOf s t := by
  intro _ finding
  obtain ⟨start, startHash⟩ := opens.started finding
  rw [start, startHash, named]

theorem starts_same (same : t.currState = s.currState) : Starts numberOf s t :=
  fun other finding => absurd (same ▸ finding) other

theorem Genuine.blockNumber {h : SyncHeader} (genuine : Genuine numberOf h) :
    numberOf h.hash = h.blockNumber := by
  rw [genuine.1, SyncHeader.blockNumber, Nat.mod_eq_of_lt genuine.2]

theorem Paired.onPeerNewBlock {block : NewBlock} (paired : w.Paired numberOf)
    (same : v.sync = w.sync.onPeerNewBlock host (some block)) (reported : v.reported = w.reported)
    (fits : w.Fits numberOf (.peerNewBlock host (some block))) :
    v.Paired numberOf ∧ Starts numberOf w.sync v.sync := by
  obtain ⟨genuine, chain⟩ := fits
  by_cases idle : w.sync.currState = .idle
  · rw [onPeerNewBlock_idle block idle] at same
    obtain opens | imported := idleOnPeerNewBlock_cases host block idle
    · rw [← same] at opens
      exact ⟨paired.keep opens.lastBlocks reported, starts_opens opens paired.imported⟩
    · rw [imported] at same
      refine ⟨⟨?_, ?_⟩, starts_same (by rw [same])⟩
      · rw [same]
        exact genuine.blockNumber
      · rw [same, reported]
        exact paired.irreversible
  by_cases waiting : w.sync.currState = .waiting
  · rw [onPeerNewBlock_waiting block waiting] at same
    split at same
    · have opens := opens_waitingOnPeerNewBlock host block waiting
      rw [← same] at opens
      exact ⟨paired.keep opens.lastBlocks reported, starts_opens opens (chain waiting)⟩
    · exact ⟨paired.keep (by rw [same]) reported, starts_same (by rw [same])⟩
  · have moves : Moves w.sync (w.sync.onPeerNewBlock host (some block)) :=
      moves_onPeerNewBlock (some block) idle waiting
    rw [← same] at moves
    exact ⟨paired.keep moves.lastBlocks reported, starts_moves moves⟩

theorem Paired.onBlockImported {info : SyncHeader} {lastIrrBlock : ℕ} {lastIrrBlockHash : Hash}
    (paired : w.Paired numberOf)
    (same : v.sync = w.sync.onBlockImported info lastIrrBlock lastIrrBlockHash)
    (reported : v.reported = (lastIrrBlock, lastIrrBlockHash) :: w.reported)
    (fits : w.Fits numberOf (.blockImported info lastIrrBlock lastIrrBlockHash)) :
    v.Paired numberOf ∧ Starts numberOf w.sync v.sync := by
  obtain ⟨genuine, known⟩ := fits
  -- No greater irreversible block is reported, so only the last imported block may change.
  have least : ¬ w.sync.lastIrreversibleBlock < lastIrrBlock := by
    obtain less | equal := known
    · omega
    · rw [(Prod.mk.inj equal).1]
      exact lt_irrefl _
  have irreversible : v.reported.find? (·.1 = w.sync.lastIrreversibleBlock) =
      some (w.sync.lastIrreversibleBlock, w.sync.lastIrreversibleBlockHash) := by
    rw [reported]
    obtain less | equal := known
    · rw [List.find?_cons_of_neg (by simpa using less.ne)]
      exact paired.irreversible
    · rw [equal, List.find?_cons_of_pos (by simp)]
  unfold BlockChainSync.onBlockImported at same
  simp only at same
  split at same
  · refine ⟨⟨?_, ?_⟩, starts_same (by rw [same])⟩
    · rw [same]
      exact genuine.blockNumber
    · rw [same]
      exact irreversible
  · refine ⟨⟨?_, ?_⟩, starts_same (by rw [same])⟩
    · rw [same]
      exact paired.imported
    · rw [same]
      exact irreversible

theorem Paired.step {event : Event β} (paired : w.Paired numberOf) (fits : w.Fits numberOf event)
    (taken : Watched.step facts event w = some v) :
    v.Paired numberOf ∧ Starts numberOf w.sync v.sync := by
  obtain rfl := Option.some.inj taken
  cases event with
  | peerStatus host peer =>
    by_cases idle : w.sync.currState = .idle
    · have opens := opens_idleOnPeerStatus host peer idle
      rw [← onPeerStatus_idle peer idle] at opens
      exact ⟨paired.keep opens.lastBlocks rfl, starts_opens opens paired.imported⟩
    · have moves : Moves w.sync (w.sync.onPeerStatus host peer) := moves_onPeerStatus peer idle
      exact ⟨paired.keep moves.lastBlocks rfl, starts_moves moves⟩
  | peerBlockHeaders host peer items =>
    have moves : Moves w.sync (w.sync.onPeerBlockHeaders facts host peer items) :=
      moves_onPeerBlockHeaders peer items
    exact ⟨paired.keep moves.lastBlocks rfl, starts_moves moves⟩
  | peerBlockBodies host peer items =>
    have moves : Moves w.sync (w.sync.onPeerBlockBodies facts host peer items) :=
      moves_onPeerBlockBodies peer items
    exact ⟨paired.keep moves.lastBlocks rfl, starts_moves moves⟩
  | peerNewBlock host block =>
    cases block with
    | none =>
      have moves : Moves w.sync (w.sync.onPeerNewBlock host none) := moves_onPeerNewBlock_none
      exact ⟨paired.keep moves.lastBlocks rfl, starts_moves moves⟩
    | some block => exact paired.onPeerNewBlock rfl rfl fits
  | blockImported info lastIrrBlock lastIrrBlockHash =>
    exact paired.onBlockImported rfl rfl fits
  | roomAvailable => exact ⟨paired.keep rfl rfl, starts_same rfl⟩
  | restartSync host => exact ⟨⟨fits, paired.irreversible⟩, starts_same rfl⟩
  | completeSync => exact ⟨paired.keep rfl rfl, starts_same rfl⟩
  | pauseSync => exact ⟨paired.keep rfl rfl, starts_same rfl⟩

theorem paired_start {number lastIrrBlock : ℕ} {hash lastIrrBlockHash : Hash}
    (named : numberOf hash = number) :
    (start number hash lastIrrBlock lastIrrBlockHash : Watched β).Paired numberOf :=
  ⟨named, List.find?_cons_of_pos (by simp [start, BlockChainSync.start])⟩

/-- In every run without a report of a new irreversible block, numbers and hashes of the last blocks
belong together, and so do they where a sync starts next. -/
theorem last_blocks_paired {number lastIrrBlock : ℕ} {hash lastIrrBlockHash : Hash}
    {events : List (Event β)} (named : numberOf hash = number)
    (fits : Runs.Along (Watched.step facts) (Fits numberOf) events
      (start number hash lastIrrBlock lastIrrBlockHash))
    (ran : Runs.run (Watched.step facts) events
      (start number hash lastIrrBlock lastIrrBlockHash) = some w) :
    numberOf w.sync.lastImportedBlockHash = w.sync.lastImportedBlock ∧
      w.reported.find? (·.1 = w.sync.lastIrreversibleBlock) =
        some (w.sync.lastIrreversibleBlock, w.sync.lastIrreversibleBlockHash) ∧
      ∀ event v, w.Fits numberOf event → Watched.step facts event w = some v →
        w.sync.currState ≠ .findingCommonBlock → v.sync.currState = .findingCommonBlock →
          numberOf v.sync.syncStartBlockHash = v.sync.syncStartBlock := by
  have paired : w.Paired numberOf := Runs.keeps
    (fun _ _ _ held fits taken => (Paired.step held fits taken).1) (paired_start named) fits ran
  exact ⟨paired.imported, paired.irreversible,
    fun _ _ fits taken => (paired.step fits taken).2⟩

/-- The number of the block with a hash, for the sample headers. -/
def sampleNumber (hash : Hash) : ℕ := (hash.toNat - 100) % 50

/-- A block is imported, and then a peer with the same irreversible block is ahead. -/
def sampleReports (lastIrrBlock : ℕ) (lastIrrBlockHash : Hash) : List (Event ℕ) :=
  [.blockImported (sampleHeader 0 6) lastIrrBlock lastIrrBlockHash,
    .peerStatus sampleSyncHost { samplePeer with
      lastIrrBlock := lastIrrBlock
      lastIrrBlockHash := lastIrrBlockHash }]

/-- With the same irreversible block, the sync starts after the block that was imported. -/
theorem last_blocks_paired_imported : ∃ w : Watched ℕ,
    Runs.run (Watched.step sampleBodies) (sampleReports 3 103) (start 5 105 3 103) = some w ∧
      w.sync.lastImportedBlock = 6 ∧
      sampleNumber w.sync.lastImportedBlockHash = w.sync.lastImportedBlock := by
  obtain ⟨w, ran⟩ := Option.isSome_iff_exists.mp
    (show (Runs.run (Watched.step sampleBodies) (sampleReports 3 103)
      (start 5 105 3 103)).isSome = true from rfl)
  have imported : (Runs.run (Watched.step sampleBodies) (sampleReports 3 103)
      (start 5 105 3 103)).map (·.sync.lastImportedBlock) = some 6 := by decide +kernel
  rw [ran] at imported
  refine ⟨w, ran, Option.some.inj imported, ?_⟩
  refine (last_blocks_paired (by decide +kernel) ?_ ran).1
  exact ⟨⟨⟨by decide +kernel, by decide +kernel⟩, Or.inr (by decide +kernel)⟩, trivial, trivial⟩

/-- With a new irreversible block, the hash of that block is kept with the number of the one that
was
imported, and a sync starts with both. -/
theorem last_blocks_mixed :
    (Runs.run (Watched.step sampleBodies) (sampleReports 4 104) (start 5 105 3 103)).map
      (fun w => (w.sync.lastBlocks, w.sync.currState, w.sync.syncStartBlock,
        w.sync.syncStartBlockHash)) =
      some ((6, 104, 4, 103), .findingCommonBlock, 6, 104) := by
  decide +kernel

end Watched

end BlockChainSync

end Etiam
