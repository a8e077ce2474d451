import Etiam.Block.Enact
import Etiam.Block.HeaderRlp
import Etiam.State.Credit

/-! The block that a producer works on: its transactions, its seal, and whether the producer
accepts it when it is played back. -/

namespace Etiam

open Rlp

/-- Whether the numbers of a signature are in range. -/
def Signature.isValid (sig : Signature) : Bool :=
  let max : Hash := 0xfffffffffffffffffffffffffffffffebaaedce6af48a03bbfd25e8cd0364141
  sig.v ≤ 1 && 0 < sig.r && 0 < sig.s && sig.r < max && sig.s < max

/-- The hash that the signature of a header is made for. -/
def BlockInfo.hashWithoutSeal (sha3 : Bytes → Hash) (h : BlockInfo) : Hash :=
  sha3 (appendList h.streamRLPFields.flatten)

/-- What a producer makes blocks with. -/
structure Sealer where
  sha3 : Bytes → Hash
  transactionRlp : Transaction → Bytes
  digest : Digest
  executor : Executor
  blockReward : U256 → U256

namespace ActiveBlock

/-- A block without transactions on the state of its parent. -/
def resetCurrent (digest : Digest) (author : Address) (timestamp : U256) (parent : BlockInfo)
    (s : CachedState) : ActiveBlock where
  state := s
  precommit := s
  previousBlock := parent
  currentBlock := { BlockInfo.blank with
    author
    timestamp := if parent.timestamp + 1 < timestamp then timestamp else parent.timestamp + 1
    stateRoot := parent.stateRoot
    number := parent.number + 1
    parentHash := digest.hash parent
    gasLimit := parent.gasLimit
    difficulty := 1 }

/-- Credit the author, commit the state and fill in the header, unless the block is sealed. -/
def commitToSeal (sealer : Sealer) (extraData : Bytes) (b : ActiveBlock) : Option ActiveBlock :=
  if b.isSealed then none
  else
    let b := if b.committedToSeal then b.uncommitToSeal else { b with precommit := b.state }
    let b := (b.applyRewards (sealer.blockReward b.currentBlock.number)).commit
    some { b with
      currentBlock := { b.currentBlock with
        logBloom := b.logBloom sealer.digest
        gasUsed := b.gasUsed
        transactionsRoot :=
          sealer.digest.orderedTrieRoot (b.transactions.map sealer.transactionRlp)
        receiptsRoot := b.receiptsRoot sealer.digest
        -- There are no uncles, so this is the hash of an empty list.
        sha3Uncles := sealer.sha3 (appendList [])
        stateRoot := b.rootHash sealer.digest
        parentHash := sealer.digest.hash b.previousBlock
        extraData := extraData.take 32 }
      committedToSeal := true }

end ActiveBlock

/-- The block that a producer works on, with the hash that its header remembers. -/
structure WorkingBlock where
  block : ActiveBlock
  /-- The hash without the signature, zero where it was not asked for since the last change. -/
  hashWithout : Hash := 0

/-- What happens to a working block before it is sealed. -/
inductive WorkStep where
  | execute (t : Transaction)
  | commitToSeal (extraData : Bytes)
  | uncommitToSeal
  /-- Somebody asks for the hash without the signature. -/
  | hashWithoutSeal

namespace WorkingBlock

/-- The hash without the signature, which is remembered. -/
def hashWithoutSeal (sealer : Sealer) (w : WorkingBlock) : Hash :=
  if w.hashWithout = 0 then w.block.currentBlock.hashWithoutSeal sealer.sha3 else w.hashWithout

/-- One step of the work, nothing where it throws. -/
def step (sealer : Sealer) (w : WorkingBlock) : WorkStep → Option WorkingBlock
  | .execute t =>
    match w.block.execute true sealer.executor t with
    | (.ok (), b) => some { w with block := b }
    | (.error _, _) => none
  | .commitToSeal extraData => (w.block.commitToSeal sealer extraData).map ({ block := · })
  | .uncommitToSeal => some { w with block := w.block.uncommitToSeal }
  | .hashWithoutSeal => some { w with hashWithout := w.hashWithoutSeal sealer }

/-- All steps of the work, nothing where one throws. -/
def work (sealer : Sealer) (w : WorkingBlock) (steps : List WorkStep) : Option WorkingBlock :=
  steps.foldlM (step sealer) w

/-- Change the time of the block. -/
def setTimestamp (timestamp : U256) (w : WorkingBlock) : WorkingBlock where
  block := { w.block with currentBlock := { w.block.currentBlock with timestamp } }

/-- Write the version and the vote into the header, which does not make it forget its hash. -/
def voteForHardforks (runningVersion hardforkVersion hardforkTime : U32) (w : WorkingBlock) :
    WorkingBlock :=
  { w with block := { w.block with currentBlock := { w.block.currentBlock with
      runningVersion, hardforkVersion, hardforkTime } } }

/-- The header of the block with a signature, where the signature is valid. -/
def sign (sealer : Sealer) (signer : Hash → Signature) (w : WorkingBlock) : BlockInfo :=
  let sig := signer (w.hashWithoutSeal sealer)
  if sig.isValid then { w.block.currentBlock with signature := sig } else w.block.currentBlock

/-- Finish the block for a time slot and encode its signed header, unless it is sealed. -/
def generateBlock (sealer : Sealer) (time : U256) (extraData : Bytes)
    (runningVersion hardforkVersion hardforkTime : U32) (signer : Hash → Signature)
    (w : WorkingBlock) : Option (Bytes × WorkingBlock) :=
  let w := w.setTimestamp time
  match w.block.commitToSeal sealer extraData with
  | none => none
  | some b =>
    let w := voteForHardforks runningVersion hardforkVersion hardforkTime { block := b }
    some ((w.sign sealer signer).streamRLP, w)

/-- Take a signed header for the block if it belongs to it, nothing where it cannot be read. -/
def sealBlock (sealer : Sealer) (header : Bytes) (w : WorkingBlock) :
    Option (Bool × WorkingBlock) :=
  if !w.block.committedToSeal then some (false, w)
  else
    match BlockInfo.ofHeaderData sealer.sha3 header with
    | none => none
    | some (info, _) =>
      if info.hashWithoutSeal sealer.sha3 ≠ w.hashWithoutSeal sealer then some (false, w)
      else some (true, { block := { w.block with
        currentBlock := info, state := w.block.precommit, isSealed := true } })

end WorkingBlock

/-- Headers that transactions cannot tell apart. -/
structure BlockInfo.SameEnv (h h' : BlockInfo) : Prop where
  author : h'.author = h.author
  number : h'.number = h.number
  gasLimit : h'.gasLimit = h.gasLimit
  parentHash : h'.parentHash = h.parentHash

namespace ActiveBlock

variable {sealer : Sealer} {start b : ActiveBlock}

@[simp] theorem committedToSeal_uncommitToSeal (b : ActiveBlock) :
    b.uncommitToSeal.committedToSeal = false := by
  unfold uncommitToSeal
  split
  · rfl
  · next open_ => simpa using open_

theorem uncommitToSeal_of_not (never : b.committedToSeal = false) : b.uncommitToSeal = b := by
  rw [uncommitToSeal, if_neg (by simp [never])]

@[simp] theorem uncommitToSeal_uncommitToSeal (b : ActiveBlock) :
    b.uncommitToSeal.uncommitToSeal = b.uncommitToSeal :=
  uncommitToSeal_of_not (committedToSeal_uncommitToSeal b)

theorem uncommitToSeal_frame (b : ActiveBlock) :
    b.uncommitToSeal = { b with
      state := b.uncommitToSeal.state, committedToSeal := false } := by
  unfold uncommitToSeal
  split
  · rfl
  · next open_ =>
    have never : b.committedToSeal = false := by simpa using open_
    cases b
    cases never
    rfl

/-- A block as it is opened on its parent. -/
structure Fresh (digest : Digest) (b : ActiveBlock) : Prop where
  isSealed : b.isSealed = false
  committedToSeal : b.committedToSeal = false
  transactions : b.transactions = []
  receipts : b.receipts = []
  parentHash : b.currentBlock.parentHash = digest.hash b.previousBlock

theorem fresh_resetCurrent (digest : Digest) (author : Address) (timestamp : U256)
    (parent : BlockInfo) (s : CachedState) :
    Fresh digest (resetCurrent digest author timestamp parent s) :=
  ⟨rfl, rfl, rfl, rfl, rfl⟩

/-- The block as the transactions of another block leave it, under a given header. -/
def after (start : ActiveBlock) (h : BlockInfo) (b : ActiveBlock) : ActiveBlock :=
  { start with
    currentBlock := h
    state := b.uncommitToSeal.state
    transactions := b.transactions
    receipts := b.receipts }

/-- A block that is worked on has the outcome that its transactions have when they are played
back, under any header that looks the same to them. -/
structure Tracks (sealer : Sealer) (start b : ActiveBlock) : Prop where
  isSealed : b.isSealed = false
  previousBlock : b.previousBlock = start.previousBlock
  env : start.currentBlock.SameEnv b.currentBlock
  signature : b.currentBlock.signature = start.currentBlock.signature
  playBack : ∀ h, start.currentBlock.SameEnv h →
    playBack true sealer.executor 0 b.transactions { start with currentBlock := h } =
      (.ok (), start.after h b)

theorem Fresh.tracks {digest : Digest} (fresh : Fresh digest start) :
    Tracks sealer start start where
  isSealed := fresh.isSealed
  previousBlock := rfl
  env := ⟨rfl, rfl, rfl, rfl⟩
  signature := rfl
  playBack h _ := by
    have same : start.uncommitToSeal = start := uncommitToSeal_of_not fresh.committedToSeal
    simp only [after, same, fresh.transactions, ActiveBlock.playBack]

theorem playBack_append {executor : Executor} {ts : List Transaction} {d : ActiveBlock}
    (t : Transaction) (i : ℕ) (first : playBack true executor i ts b = (.ok (), d)) :
    playBack true executor i (ts ++ [t]) b = playBack true executor (i + ts.length) [t] d := by
  -- The induction follows the transactions, with the index counted up beside them.
  induction ts generalizing i b with
  | nil =>
    cases first
    rfl
  | cons t' ts ih =>
    simp only [List.cons_append, playBack] at first ⊢
    rcases outcome : b.execute true executor t' with ⟨_ | u, c⟩
    · rw [outcome] at first
      cases first
    · rw [outcome] at first
      simp only at first ⊢
      rw [ih (i + 1) first, List.length_cons, Nat.add_assoc, Nat.add_comm 1]
      rfl

theorem Tracks.envInfo (tracks : Tracks sealer start b) {h : BlockInfo}
    (env : start.currentBlock.SameEnv h) :
    (start.after h b).envInfo = b.uncommitToSeal.envInfo := by
  rw [uncommitToSeal_frame b]
  simp only [ActiveBlock.envInfo, after, gasUsed, env.author, env.number, env.gasLimit,
    env.parentHash, tracks.env.author, tracks.env.number, tracks.env.gasLimit,
    tracks.env.parentHash, tracks.previousBlock]

theorem execute_eq_ok {executor : Executor} {t : Transaction} {b' : ActiveBlock}
    (ran : b.execute true executor t = (.ok (), b')) :
    ∃ receipt s, b.uncommitToSeal.state.execute true executor b.uncommitToSeal.envInfo t =
        (.ok receipt, s) ∧
      b' = { b.uncommitToSeal with
        state := s
        transactions := b.transactions ++ [t]
        receipts := b.receipts ++ [receipt] } := by
  have still : b.uncommitToSeal.transactions = b.transactions ∧
      b.uncommitToSeal.receipts = b.receipts := by
    rw [uncommitToSeal_frame]
    exact ⟨rfl, rfl⟩
  unfold ActiveBlock.execute at ran
  split at ran
  · cases ran
  · simp only at ran
    split at ran
    · cases ran
    · next receipt s outcome =>
      obtain ⟨-, rfl⟩ := Prod.mk.inj ran
      exact ⟨receipt, s, outcome, by rw [still.1, still.2]⟩

theorem Tracks.execute (tracks : Tracks sealer start b) (fresh : Fresh sealer.digest start)
    {t : Transaction} {b' : ActiveBlock}
    (ran : b.execute true sealer.executor t = (.ok (), b')) : Tracks sealer start b' := by
  obtain ⟨receipt, s, outcome, result⟩ := execute_eq_ok ran
  have last : b'.uncommitToSeal = b' :=
    uncommitToSeal_of_not (by rw [result]; exact committedToSeal_uncommitToSeal b)
  rw [uncommitToSeal_frame b] at result
  refine ⟨?_, ?_, ?_, ?_, fun h env => ?_⟩
  · rw [result]
    exact tracks.isSealed
  · rw [result]
    exact tracks.previousBlock
  · rw [result]
    exact tracks.env
  · rw [result]
    exact tracks.signature
  · -- The same transaction comes next in the block that is played back, in the same state.
    have here : (start.after h b).uncommitToSeal = start.after h b :=
      uncommitToSeal_of_not fresh.committedToSeal
    have open_ : (start.after h b).isSealed = false := fresh.isSealed
    have same : (start.after h b).state.execute true sealer.executor (start.after h b).envInfo t =
        (.ok receipt, s) := by
      rw [tracks.envInfo env]
      exact outcome
    have more : b'.transactions = b.transactions ++ [t] := by rw [result]
    rw [more, playBack_append t 0 (tracks.playBack h env), ActiveBlock.playBack,
      ActiveBlock.execute, open_, if_neg (by simp), here]
    simp only [same, ActiveBlock.playBack]
    rw [after, after, last, result]

theorem commitToSeal_eq (open_ : b.isSealed = false) (extraData : Bytes) :
    b.commitToSeal sealer extraData = some { b with
      state := (b.uncommitToSeal.state.addBalance b.currentBlock.author
        (sealer.blockReward b.currentBlock.number)).commit .removeEmptyAccounts
      precommit := b.uncommitToSeal.state
      currentBlock := { b.currentBlock with
        logBloom := b.logBloom sealer.digest
        gasUsed := b.gasUsed
        transactionsRoot :=
          sealer.digest.orderedTrieRoot (b.transactions.map sealer.transactionRlp)
        receiptsRoot := b.receiptsRoot sealer.digest
        sha3Uncles := sealer.sha3 (appendList [])
        stateRoot := sealer.digest.rootHash ((b.uncommitToSeal.state.addBalance
          b.currentBlock.author
          (sealer.blockReward b.currentBlock.number)).commit .removeEmptyAccounts).state
        parentHash := sealer.digest.hash b.previousBlock
        extraData := extraData.take 32 }
      committedToSeal := true } := by
  rw [commitToSeal, if_neg (by simp [open_])]
  cases committed : b.committedToSeal with
  | true =>
    simp [uncommitToSeal, committed, commit, applyRewards, rootHash, logBloom, gasUsed,
      receiptsRoot]
  | false =>
    simp [uncommitToSeal, committed, commit, applyRewards, rootHash, logBloom, gasUsed,
      receiptsRoot]

theorem Tracks.commitToSeal (tracks : Tracks sealer start b) (fresh : Fresh sealer.digest start)
    {extraData : Bytes} {b' : ActiveBlock}
    (committed : b.commitToSeal sealer extraData = some b') : Tracks sealer start b' := by
  rw [commitToSeal_eq tracks.isSealed, Option.some.injEq] at committed
  have undone : b'.uncommitToSeal.state = b.uncommitToSeal.state := by
    rw [← committed]
    rfl
  have parent : b'.currentBlock.parentHash = start.currentBlock.parentHash := by
    rw [← committed, fresh.parentHash, ← tracks.previousBlock]
  have sameAfter (h : BlockInfo) : start.after h b' = start.after h b := by
    rw [after, after, undone, ← committed]
  refine ⟨?_, ?_, ⟨?_, ?_, ?_, parent⟩, ?_, fun h env => ?_⟩
  · rw [← committed]
    exact tracks.isSealed
  · rw [← committed]
    exact tracks.previousBlock
  · rw [← committed]
    exact tracks.env.author
  · rw [← committed]
    exact tracks.env.number
  · rw [← committed]
    exact tracks.env.gasLimit
  · rw [← committed]
    exact tracks.signature
  · have same : b'.transactions = b.transactions := by rw [← committed]
    rw [same, sameAfter]
    exact tracks.playBack h env

theorem Tracks.uncommitToSeal (tracks : Tracks sealer start b) :
    Tracks sealer start b.uncommitToSeal := by
  have frame := uncommitToSeal_frame b
  refine ⟨?_, ?_, ?_, ?_, fun h env => ?_⟩
  · rw [frame]
    exact tracks.isSealed
  · rw [frame]
    exact tracks.previousBlock
  · rw [frame]
    exact tracks.env
  · rw [frame]
    exact tracks.signature
  · have same : start.after h b.uncommitToSeal = start.after h b := by
      rw [after, after, uncommitToSeal_uncommitToSeal, frame]
    rw [same, frame]
    exact tracks.playBack h env

end ActiveBlock

namespace WorkingBlock

open ActiveBlock

variable {sealer : Sealer} {start : ActiveBlock} {w w' : WorkingBlock}

theorem tracks_step (fresh : Fresh sealer.digest start) (tracks : Tracks sealer start w.block)
    {step : WorkStep} (stepped : w.step sealer step = some w') :
    Tracks sealer start w'.block := by
  cases step with
  | execute t =>
    rw [WorkingBlock.step] at stepped
    split at stepped
    · next b ran =>
      obtain rfl := Option.some.inj stepped
      exact tracks.execute fresh ran
    · cases stepped
  | commitToSeal extraData =>
    obtain ⟨b, committed, rfl⟩ := Option.map_eq_some_iff.mp stepped
    exact tracks.commitToSeal fresh committed
  | uncommitToSeal =>
    obtain rfl := Option.some.inj stepped
    exact tracks.uncommitToSeal
  | hashWithoutSeal =>
    obtain rfl := Option.some.inj stepped
    exact tracks

theorem tracks_work (fresh : Fresh sealer.digest start) (tracks : Tracks sealer start w.block)
    {steps : List WorkStep} (worked : w.work sealer steps = some w') :
    Tracks sealer start w'.block := by
  induction steps generalizing w with
  | nil =>
    obtain rfl := Option.some.inj worked
    exact tracks
  | cons step steps ih =>
    rw [work, List.foldlM_cons] at worked
    obtain ⟨mid, stepped, rest⟩ := Option.bind_eq_some_iff.mp worked
    exact ih (tracks_step fresh tracks stepped) rest

end WorkingBlock

namespace WorkingBlock

open ActiveBlock

variable {sealer : Sealer} {start : ActiveBlock} {w : WorkingBlock} {info : BlockInfo}

/-- What the header says that a producer makes for a block. -/
structure Finished (sealer : Sealer) (start : ActiveBlock) (w : WorkingBlock)
    (info : BlockInfo) : Prop where
  env : start.currentBlock.SameEnv info
  v : info.signature.v.toNat ≤ 1
  extraData : info.extraData.length ≤ 32
  receiptsRoot : info.receiptsRoot = w.block.receiptsRoot sealer.digest
  logBloom : info.logBloom = w.block.logBloom sealer.digest
  gasUsed : info.gasUsed = w.block.gasUsed
  stateRoot : info.stateRoot = sealer.digest.rootHash
    ((w.block.uncommitToSeal.state.addBalance start.currentBlock.author
      (sealer.blockReward start.currentBlock.number)).commit .removeEmptyAccounts).state

theorem sign_cases (signer : Hash → Signature) (old : w.block.currentBlock.signature.v.toNat ≤ 1) :
    ∃ sig : Signature, sig.v.toNat ≤ 1 ∧
      w.sign sealer signer = { w.block.currentBlock with signature := sig } := by
  unfold sign
  simp only
  split
  · next valid =>
    refine ⟨_, ?_, rfl⟩
    simp only [Signature.isValid, Bool.and_eq_true, decide_eq_true_eq] at valid
    exact valid.1.1.1.1
  · exact ⟨_, old, rfl⟩

/-- A producer gets a header for every block that was worked on, and the header fits the block. -/
theorem generateBlock_spec (fresh : Fresh sealer.digest start)
    (tracks : Tracks sealer start w.block) (unsigned : start.currentBlock.signature.v.toNat ≤ 1)
    (time : U256) (extraData : Bytes) (runningVersion hardforkVersion hardforkTime : U32)
    (signer : Hash → Signature) :
    ∃ info w', w.generateBlock sealer time extraData runningVersion hardforkVersion hardforkTime
        signer = some (info.streamRLP, w') ∧
      Finished sealer start w info ∧ w'.block.committedToSeal = true ∧
      info.hashWithoutSeal sealer.sha3 = w'.hashWithoutSeal sealer := by
  have open_ : (w.setTimestamp time).block.isSealed = false := tracks.isSealed
  have still : (w.setTimestamp time).block.uncommitToSeal.state = w.block.uncommitToSeal.state := by
    unfold uncommitToSeal setTimestamp
    split <;> rfl
  have old : w.block.currentBlock.signature.v.toNat ≤ 1 := tracks.signature ▸ unsigned
  unfold generateBlock
  cases committed : (w.setTimestamp time).block.commitToSeal sealer extraData with
  | none =>
    rw [commitToSeal_eq open_] at committed
    cases committed
  | some b =>
    simp only [committed]
    rw [commitToSeal_eq open_, Option.some.injEq] at committed
    generalize voted : voteForHardforks runningVersion hardforkVersion hardforkTime
      { block := b } = v
    have old' : v.block.currentBlock.signature.v.toNat ≤ 1 := by
      rw [← voted, ← committed]
      exact old
    obtain ⟨sig, low, signed⟩ := sign_cases signer old'
    refine ⟨v.sign sealer signer, v, rfl, ?_, ?_, ?_⟩
    · rw [signed, ← voted, ← committed]
      refine ⟨⟨tracks.env.author, tracks.env.number, tracks.env.gasLimit, ?_⟩, low, ?_, rfl, rfl,
        rfl, ?_⟩
      · rw [fresh.parentHash, ← tracks.previousBlock]
        rfl
      · exact List.length_take_le 32 extraData
      · rw [← still, ← tracks.env.author, ← tracks.env.number]
        rfl
    · rw [← voted, ← committed]
      rfl
    · -- Nothing was remembered of the header since it was committed for sealing.
      rw [signed, ← voted]
      rfl

theorem sealBlock_of_finished {w' : WorkingBlock} (finished : Finished sealer start w info)
    (committed : w'.block.committedToSeal = true)
    (own : info.hashWithoutSeal sealer.sha3 = w'.hashWithoutSeal sealer) :
    ∃ w'', w'.sealBlock sealer info.streamRLP = some (true, w'') ∧
      w''.block.currentBlock = info := by
  have read : BlockInfo.ofHeaderData sealer.sha3 info.streamRLP = some (info, _) :=
    BlockInfo.ofHeaderData_streamRLP finished.v
      (lt_of_le_of_lt finished.extraData (by decide))
  unfold sealBlock
  rw [committed, if_neg (by simp), read]
  simp only [own, ne_eq, not_true_eq_false, if_false]
  exact ⟨_, rfl, rfl⟩

theorem played_of_finished (start' : ActiveBlock) (tracks : Tracks sealer start w.block)
    (finished : Finished sealer start w info)
    (same : ∀ h, { start' with currentBlock := h } = { start with currentBlock := h }) :
    ∃ d, played sealer.executor sealer.blockReward info w.block.transactions start' = .ok d ∧
      d.receipts = w.block.receipts ∧
      d.state = (((w.block.uncommitToSeal.state.commit .removeEmptyAccounts).addBalance
        start.currentBlock.author (sealer.blockReward start.currentBlock.number)).commit
          .removeEmptyAccounts) := by
  rw [played, same, tracks.playBack info finished.env]
  refine ⟨_, rfl, rfl, ?_⟩
  rw [← finished.env.author, ← finished.env.number]
  rfl

end WorkingBlock

open ActiveBlock WorkingBlock

/-- A producer takes the header of its own block, and accepts the block when it is played back
exactly if the account of the author is written alike in both orders of the reward and the commit,
or the block leads back to the state root of its parent. -/
theorem own_block_enacted_iff (sealer : Sealer) (author author' : Address)
    (timestamp timestamp' : U256) (parent : BlockInfo) (s : CachedState) (steps : List WorkStep)
    (w : WorkingBlock)
    (worked : work sealer { block := resetCurrent sealer.digest author timestamp parent s } steps =
      some w)
    (time : U256) (extraData : Bytes) (runningVersion hardforkVersion hardforkTime : U32)
    (signer : Hash → Signature)
    (noCollision :
      let base := w.block.uncommitToSeal.state
      let reward := sealer.blockReward (parent.number + 1)
      let once := ((base.addBalance author reward).commit .removeEmptyAccounts).state
      let twice := (((base.commit .removeEmptyAccounts).addBalance author reward).commit
        .removeEmptyAccounts).state
      sealer.digest.rootHash once = sealer.digest.rootHash twice → once = twice) :
    ∃ info w' w'', w.generateBlock sealer time extraData runningVersion hardforkVersion
        hardforkTime signer = some (info.streamRLP, w') ∧
      w'.sealBlock sealer info.streamRLP = some (true, w'') ∧ w''.block.currentBlock = info ∧
      ((enact true sealer.executor sealer.blockReward sealer.digest info w.block.transactions
          (resetCurrent sealer.digest author' timestamp' parent s)).1.isOk = true ↔
        w.block.uncommitToSeal.state.CreditSafe author (sealer.blockReward (parent.number + 1)) ∨
          info.stateRoot = parent.stateRoot) ∧
      (w.block.uncommitToSeal.state.Faithful → w.block.uncommitToSeal.state.Listed →
        (w.block.uncommitToSeal.state.CreditSafe author (sealer.blockReward (parent.number + 1)) ↔
          ∀ e, w.block.uncommitToSeal.state.lookup author = some e → CachedState.Doomed e →
            w.block.uncommitToSeal.state.accountStartNonce = 0 ∧
              (sealer.blockReward (parent.number + 1) = 0 ∨
                e.isAlive = true ∧ e.content.storage = .empty))) := by
  have fresh := fresh_resetCurrent sealer.digest author timestamp parent s
  have tracks := tracks_work fresh fresh.tracks worked
  obtain ⟨info, w', generated, finished, committed, own⟩ := generateBlock_spec fresh tracks
    (Nat.zero_le 1) time extraData runningVersion hardforkVersion hardforkTime signer
  obtain ⟨w'', sealed, taken⟩ := sealBlock_of_finished finished committed own
  refine ⟨info, w', w'', generated, sealed, taken, ?_, CachedState.creditSafe_iff⟩
  obtain ⟨d, ends, receipts, state⟩ := played_of_finished
    (resetCurrent sealer.digest author' timestamp' parent s) tracks finished (fun _ => rfl)
  have settles : info.stateRoot = d.rootHash sealer.digest ↔
      w.block.uncommitToSeal.state.CreditSafe author (sealer.blockReward (parent.number + 1)) := by
    rw [← CachedState.addBalance_commit_eq_iff, finished.stateRoot, rootHash, state]
    exact ⟨noCollision, fun same => congrArg sealer.digest.rootHash same⟩
  rw [enact_ok_iff, ← settles]
  constructor
  · rintro ⟨-, d', ends', -, -, -, either⟩
    obtain rfl : d = d' := Except.ok.inj (ends.symm.trans ends')
    exact either
  · intro either
    refine ⟨rfl, d, ends, ?_, ?_, ?_, either⟩
    · rw [finished.receiptsRoot, receiptsRoot, receiptsRoot, receipts]
    · rw [finished.logBloom, logBloom, logBloom, receipts]
    · rw [finished.gasUsed, gasUsed, gasUsed, receipts]

/-- A producer whose hashes count what they are made of, with a reward of five. -/
def Sealer.counting : Sealer where
  sha3 bytes := .ofNat 256 (bytes.map UInt8.toNat).sum
  transactionRlp _ := []
  digest := { Digest.blank with
    rootHash := fun accounts =>
      .ofNat 256 (accounts.toList.map fun entry => 1 + entry.2.storage.words.size).sum }
  executor := Engine.plain.executor
  blockReward _ := 5

/-- A state in which one account has money and another has nothing but words in its storage. -/
def CachedState.withWords : CachedState where
  state := (∅ : Std.ExtTreeMap Address Account).insert 2 (.fresh 0 10)
    |>.insert 9 { Account.fresh 0 0 with storage := Storage.empty.write 1 1 }
  accountStartNonce := 0
  engine _ := 0

/-- A block with a transaction before and one after it was committed for sealing, whose author has
no account before it gets the fees of zero. -/
theorem own_block_enacted_transfers :
    let start := resetCurrent Sealer.counting.digest 7 0 .blank .withWords
    let steps : List WorkStep := [.execute (.transfer 0 2 3 4), .commitToSeal [], .uncommitToSeal,
      .hashWithoutSeal, .execute (.transfer 1 2 3 1)]
    ∃ w info w' w'', work .counting { block := start } steps = some w ∧
      w.block.transactions.length = 2 ∧
      w.generateBlock .counting 1 [] 0 0 0 (fun _ => ⟨1, 1, 0⟩) = some (info.streamRLP, w') ∧
      w'.sealBlock .counting info.streamRLP = some (true, w'') ∧
      (enact true Sealer.counting.executor Sealer.counting.blockReward Sealer.counting.digest info
        w.block.transactions
        (resetCurrent Sealer.counting.digest 8 1 .blank .withWords)).1.isOk = true := by
  intro start steps
  have evaluated : ((work .counting { block := start } steps).any fun w =>
      w.block.transactions.length = 2 ∧ w.block.uncommitToSeal.state.CreditSafe 7 5) = true := by
    decide +kernel
  obtain ⟨w, worked, facts⟩ := (Option.any_eq_true _ _).mp evaluated
  obtain ⟨two, safe⟩ := of_decide_eq_true facts
  obtain ⟨info, w', w'', generated, sealed, -, accepted, -⟩ := own_block_enacted_iff .counting 7 8
    0 1 .blank .withWords steps w worked 1 [] 0 0 0 (fun _ => ⟨1, 1, 0⟩)
    (fun _ => CachedState.addBalance_commit_eq_iff.mpr safe)
  exact ⟨w, info, w', w'', worked, two, generated, sealed, accepted.mpr (.inl safe)⟩

/-- The author of a block has nothing but words in its storage, and a transaction pays it a fee of
zero. The producer keeps the words, and refuses its own block, since a commit before the reward
removes the account there. -/
theorem own_block_refused :
    let start := resetCurrent Sealer.counting.digest 9 0 .blank .withWords
    let t := Transaction.transfer 0 2 3 4
    (((work .counting { block := start } [.execute t]).bind
      (generateBlock .counting 1 [] 0 0 0 fun _ => ⟨1, 1, 0⟩)).bind fun made =>
        (made.2.sealBlock .counting made.1).map fun sealed =>
          (sealed.1, (enact true Sealer.counting.executor Sealer.counting.blockReward
            Sealer.counting.digest sealed.2.block.currentBlock [t] start).1)) =
      some (true, .error .invalidStateRoot) := by
  decide +kernel

end Etiam
