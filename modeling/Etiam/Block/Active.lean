import Etiam.Block.Executive
import Etiam.Block.HeaderRlp

/-! A block that is being made or played back: its transactions, its reward and its checks. -/

namespace Etiam

/-- What is kept of an executed transaction. -/
structure TransactionReceipt where
  statusCode : Bool
  gasUsed : U256
  log : List LogEntry

/-- The program that executes a transaction. -/
abbrev Executor := EnvInfo → Transaction → StateProgram (Except TransactionError Execution)

/-- The executor of the node. -/
def Engine.executor (engine : Engine) : Executor :=
  fun env t => (Executive.executeTransaction engine env t).run

namespace CachedState

/-- Execute a transaction, with a commit at its end unless blocks are imported by many threads. -/
def execute (multiThreadImport : Bool) (executor : Executor) (env : EnvInfo) (s : CachedState)
    (t : Transaction) : Except TransactionError TransactionReceipt × CachedState :=
  let ran := (executor env t).run Session.handle (.start s)
  match ran.1 with
  | .error e => (.error e, ran.2.state)
  | .ok x =>
    let s := x.suicides.foldl kill ran.2.state
    (.ok ⟨x.statusCode, env.gasUsed + x.gasUsed, x.logs⟩,
      if multiThreadImport then s else s.commit .removeEmptyAccounts)

end CachedState

/-- The hash functions and encodings that a header is checked with. -/
structure Digest where
  /-- The root of the trie that holds the accounts. -/
  rootHash : Std.ExtTreeMap Address Account → Hash
  orderedTrieRoot : List Bytes → Hash
  receiptRlp : TransactionReceipt → Bytes
  bloom : List LogEntry → LogBloom
  /-- The hash of a header with its signature. -/
  hash : BlockInfo → Hash

/-- An engine without contracts, fees and rewards. -/
def Engine.plain : Engine where
  baseGasRequired _ := 0
  verifyTransaction _ _ := .ok ()
  isPrecompiled _ _ := false
  costOfPrecompiled _ _ _ := 0
  executePrecompiled _ _ _ _ := .ret (.ok (false, []))
  contractAddress _ _ := 0
  exec _ _ _ := .ret .vmException
  maxCodeSize := 0
  createDataGas := 0
  exceptionalFailedCodeDeposit := false
  suicideRefundGas := 0
  blockReward _ := 0

/-- A transfer that pays no fees. -/
def Transaction.transfer (nonce : U256) (sender receiver : Address) (value : U256) :
    Transaction where
  nonce
  gasPrice := 0
  gas := 0
  receiveAddress := some receiver
  value
  data := []
  hasZeroSignature := false
  recovered := .ok sender

/-- Hash functions that forget everything. -/
def Digest.blank : Digest := ⟨fun _ => 0, fun _ => 0, fun _ => [], fun _ => 0, fun _ => 0⟩

/-- A block that transactions are added to. -/
structure ActiveBlock where
  state : CachedState
  /-- The state before the block was committed for sealing. -/
  precommit : CachedState
  transactions : List Transaction := []
  receipts : List TransactionReceipt := []
  previousBlock : BlockInfo
  currentBlock : BlockInfo
  isSealed : Bool := false
  committedToSeal : Bool := false

/-- The reasons for which a block is refused. -/
inductive EnactError where
  | invalidParentHash
  | transaction (index : ℕ) (error : TransactionError)
  | invalidReceiptsStateRoot
  | invalidLogBloom
  | invalidStateRoot
  | invalidGasUsed
  deriving DecidableEq

namespace ActiveBlock

/-- A block on a trie of accounts, with headers that say nothing. -/
def opened (accounts : Std.ExtTreeMap Address Account) : ActiveBlock :=
  let s : CachedState := { state := accounts, accountStartNonce := 0, engine := fun _ => 0 }
  { state := s, precommit := s, previousBlock := .blank, currentBlock := .blank }

/-- The gas that the transactions so far have used. -/
def gasUsed (b : ActiveBlock) : U256 := b.receipts.getLast?.elim 0 (·.gasUsed)

/-- The bloom of the logs of all transactions so far. -/
def logBloom (digest : Digest) (b : ActiveBlock) : LogBloom :=
  b.receipts.foldl (fun ret r => ret ||| digest.bloom r.log) 0

/-- The root of the receipts so far. -/
def receiptsRoot (digest : Digest) (b : ActiveBlock) : Hash :=
  digest.orderedTrieRoot (b.receipts.map digest.receiptRlp)

/-- The root of the state as it was committed last. -/
def rootHash (digest : Digest) (b : ActiveBlock) : Hash := digest.rootHash b.state.state

/-- What the next transaction sees of the block and its parent. -/
def envInfo (b : ActiveBlock) : EnvInfo where
  author := b.currentBlock.author
  number := b.currentBlock.number
  gasLimit := b.currentBlock.gasLimit
  parentHash := b.currentBlock.parentHash
  prevTimestamp := b.previousBlock.timestamp
  gasUsed := b.gasUsed

/-- Go back to the state before the block was committed for sealing. -/
def uncommitToSeal (b : ActiveBlock) : ActiveBlock :=
  if b.committedToSeal then { b with state := b.precommit, committedToSeal := false } else b

/-- Execute a transaction and add it to the block. -/
def execute (multiThreadImport : Bool) (executor : Executor) (b : ActiveBlock) (t : Transaction) :
    Except TransactionError Unit × ActiveBlock :=
  if b.isSealed then (.error .invalidOperationOnSealedBlock, b)
  else
    let b := b.uncommitToSeal
    match b.state.execute multiThreadImport executor b.envInfo t with
    | (.error e, s) => (.error e, { b with state := s })
    | (.ok receipt, s) =>
      (.ok (), { b with state := s, transactions := b.transactions ++ [t],
                        receipts := b.receipts ++ [receipt] })

/-- Credit the author of the block. -/
def applyRewards (blockReward : U256) (b : ActiveBlock) : ActiveBlock :=
  { b with state := b.state.addBalance b.currentBlock.author blockReward }

/-- Commit the state of the block. -/
def commit (b : ActiveBlock) : ActiveBlock :=
  { b with state := b.state.commit .removeEmptyAccounts }

/-- Play the transactions of a block back, counting them from an index. -/
def playBack (multiThreadImport : Bool) (executor : Executor) :
    ℕ → List Transaction → ActiveBlock → Except EnactError Unit × ActiveBlock
  | _, [], b => (.ok (), b)
  | i, t :: ts, b =>
    match b.execute multiThreadImport executor t with
    | (.error e, b) => (.error (.transaction i e), b)
    | (.ok (), b) => playBack multiThreadImport executor (i + 1) ts b

/-- The checks that are made before the reward. -/
def checkReceipts (digest : Digest) (b : ActiveBlock) : Except EnactError Unit :=
  if b.receiptsRoot digest ≠ b.currentBlock.receiptsRoot then .error .invalidReceiptsStateRoot
  else if b.currentBlock.logBloom ≠ b.logBloom digest then .error .invalidLogBloom
  else .ok ()

/-- The checks that are made at the end. -/
def checkState (digest : Digest) (b : ActiveBlock) : Except EnactError Unit :=
  -- A header that repeats the state root of its parent is not compared with the state.
  if b.currentBlock.stateRoot ≠ b.previousBlock.stateRoot ∧
      b.currentBlock.stateRoot ≠ b.rootHash digest then .error .invalidStateRoot
  else if b.currentBlock.gasUsed ≠ b.gasUsed then .error .invalidGasUsed
  else .ok ()

/-- Play a block back on the state of its parent and check its header against the outcome. -/
def enact (multiThreadImport : Bool) (executor : Executor) (blockReward : U256 → U256)
    (digest : Digest) (info : BlockInfo) (transactions : List Transaction) (b : ActiveBlock) :
    Except EnactError U256 × ActiveBlock :=
  if b.currentBlock.parentHash ≠ digest.hash b.previousBlock then (.error .invalidParentHash, b)
  else
    match playBack multiThreadImport executor 0 transactions { b with currentBlock := info } with
    | (.error e, b) => (.error e, b)
    | (.ok (), b) =>
      let b := if multiThreadImport then b.commit else b
      match b.checkReceipts digest with
      | .error e => (.error e, b)
      | .ok () =>
        let b := (b.applyRewards (blockReward b.currentBlock.number)).commit
        match b.checkState digest with
        | .error e => (.error e, b)
        | .ok () => (.ok b.currentBlock.difficulty, b)

end ActiveBlock

end Etiam
