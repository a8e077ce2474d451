import Etiam.Library.Ancestry
import Etiam.Library.Cached
import Etiam.Producer.Controller

/-! The block chain: how an imported block becomes the head or is refused. -/

namespace Etiam

namespace Config

/-- The blooms that one bloom of the next level covers. -/
def bloomIndexSize : ℕ := 16

/-- The levels of blooms. -/
def bloomIndexLevels : ℕ := 2

/-- The number of a block that is not known. -/
def invalidNumber : ℕ := 2 ^ 32 - 1

end Config

/-- A transaction as its bytes stand in a block, with its hash. -/
structure RawTransaction where
  sha3 : Hash
  data : Bytes

/-- A block that was verified and executed: its header, what the chain controller reads of the
state after its parent, its transactions with their receipts, and the bloom of its logs and its
author. No header hashes to null, and an author always sets some bit of the bloom. -/
structure Block where
  header : BlockHeader
  view : ParentView
  transactions : List RawTransaction
  receipts : List Bytes
  blockBloom : LogBloom
  hashed : header.hash ≠ 0
  authored : blockBloom ≠ 0

namespace Block

/-- The number of a block as the chain keeps it. -/
def number (block : Block) : ℕ := block.header.number.toNat

/-- A signed block in whose parent's state nobody votes or works. -/
def signed (producer : Address) (number timestamp : ℕ) (hash parent : Hash)
    (transactions : List RawTransaction) (blockBloom : LogBloom) (hashed : hash ≠ 0)
    (authored : blockBloom ≠ 0) : Block where
  header := { BlockHeader.signed producer number timestamp with hash, parentHash := parent }
  view := ⟨∅, []⟩
  transactions
  receipts := transactions.map (·.data)
  blockBloom
  hashed
  authored

end Block

/-- What the chain notes about a block. -/
structure BlockDetails where
  number : ℕ
  parent : Hash
  children : List Hash
  deriving DecidableEq

namespace BlockDetails

/-- What is answered about a block that is not known. -/
def null : BlockDetails := ⟨Config.invalidNumber, 0, []⟩

/-- Whether nothing is known about a block. -/
def isNull (details : BlockDetails) : Bool := details.number == Config.invalidNumber

end BlockDetails

/-- Where a transaction is found: a block and a place in it. -/
structure TransactionAddress where
  blockHash : Hash
  index : ℕ
  deriving DecidableEq

/-- A bunch of blooms that are stored together. -/
structure BlocksBlooms where
  blooms : Fin Config.bloomIndexSize → LogBloom

namespace BlocksBlooms

/-- A bunch without a bit set. -/
def null : BlocksBlooms := ⟨fun _ => 0⟩

/-- All blooms of a bunch in one. -/
def union (bunch : BlocksBlooms) : LogBloom :=
  (List.finRange Config.bloomIndexSize).foldl (fun acc offset => acc ||| bunch.blooms offset) 0

end BlocksBlooms

/-- The blooms of all blocks, level by level, in bunches. -/
abbrev BloomIndex := Cached ℕ BlocksBlooms

namespace BloomIndex

open Config

/-- The key of a bunch, as the 32-bit number that the code takes. -/
def chunkId (level index : ℕ) : ℕ := (index * 0xff + level) % 2 ^ 32

/-- The place of a bloom in its bunch. -/
def offset (index : ℕ) : Fin bloomIndexSize := ⟨index % bloomIndexSize, Nat.mod_lt _ (by decide)⟩

/-- Change one bloom of a level in memory. -/
def changeBloom (level index : ℕ) (f : LogBloom → LogBloom) (c : BloomIndex) : BloomIndex :=
  c.change (chunkId level (index / bloomIndexSize)) .null fun bunch =>
    ⟨Function.update bunch.blooms (offset index) (f (bunch.blooms (offset index)))⟩

/-- Add the bloom of a block to every level. -/
def addBloom (number : ℕ) (bloom : LogBloom) (c : BloomIndex) : BloomIndex :=
  (List.range bloomIndexLevels).foldl
    (fun c level => changeBloom level (number / bloomIndexSize ^ level) (· ||| bloom) c) c

/-- The bunches that the bloom of a block is in. -/
def alteredBlooms (number : ℕ) : List ℕ :=
  (List.range bloomIndexLevels).map fun level =>
    chunkId level (number / bloomIndexSize ^ level / bloomIndexSize)

/-- Rebuild one bloom from the level below it, which for the first level is empty. -/
def rebuildBloom (level : ℕ) (c : BloomIndex) (item : ℕ) : BloomIndex :=
  match level with
  | 0 => changeBloom 0 item (fun _ => 0) c
  | below + 1 =>
    let lower := chunkId below item
    let acc := ((c.find lower).getD .null).union
    changeBloom (below + 1) item (fun _ => acc) (c.query lower)

/-- Rebuild a stretch of a level. -/
def rebuildLevel (level beginDirty endDirty : ℕ) (c : BloomIndex) : BloomIndex :=
  (List.range' beginDirty (endDirty - beginDirty)).foldl (rebuildBloom level) c

/-- Rebuild a number of levels, one after another. -/
def rebuildLevels : ℕ → ℕ → ℕ → ℕ → BloomIndex → BloomIndex
  | 0, _, _, _, c => c
  | levels + 1, level, beginDirty, endDirty, c =>
    rebuildLevels levels (level + 1) (beginDirty / bloomIndexSize)
      ((endDirty - 1) / bloomIndexSize + 1) (rebuildLevel level beginDirty endDirty c)

/-- Clear the blooms of a stretch of blocks. -/
def clearBlockBlooms (first last : ℕ) (c : BloomIndex) : BloomIndex :=
  rebuildLevels bloomIndexLevels 0 first last c

/-- A power of two of a number, which for the exponents in use is the power itself. -/
def upow (a : ℕ) : ℕ → ℕ
  | 0 => 1
  | 1 => a
  | b + 2 => upow (a * a) (b + 1)

/-- A division that rounds up, on 32 bits. -/
def ceilDiv (n d : ℕ) : ℕ := (n + d - 1) % 2 ^ 32 / d

/-- The blocks of a bunch whose blooms contain a bloom, looked for level by level. -/
def withBlockBloomIn (c : BloomIndex) (b : LogBloom) (earliest latest : ℕ) : ℕ → ℕ → List ℕ
  | level, index =>
    let course := upow bloomIndexSize (level + 1)
    let fine := upow bloomIndexSize level
    let obegin := if index = earliest / course then earliest / fine % bloomIndexSize else 0
    let oend := if index = latest / course then latest / fine % bloomIndexSize + 1
      else bloomIndexSize
    let bb := (c.find (chunkId level index)).getD .null
    (List.range' obegin (oend - obegin)).flatMap fun o =>
      if bb.blooms (offset o) &&& b = b then
        match level with
        | 0 => [o + index * bloomIndexSize]
        | below + 1 => withBlockBloomIn c b earliest latest below (o + index * bloomIndexSize)
      else []

/-- The blocks of a range whose blooms contain a bloom. -/
def withBlockBloom (c : BloomIndex) (b : LogBloom) (earliest latest : ℕ) : List ℕ :=
  let u := upow bloomIndexSize bloomIndexLevels
  (List.range' (earliest / u) (ceilDiv latest u + 1 - earliest / u)).flatMap fun index =>
    withBlockBloomIn c b earliest latest (bloomIndexLevels - 1) index

end BloomIndex

/-- The block chain, with its caches over its stores, and the chain controller. -/
structure BlockChain where
  blocks : Std.ExtTreeMap Hash Block
  detailsTable : Cached Hash BlockDetails
  blockHashes : Cached ℕ Hash
  transactionAddresses : Cached Hash TransactionAddress
  blocksBlooms : BloomIndex
  genesisHash : Hash
  lastBlockHash : Hash
  lastBlockNumber : ℕ
  chainController : Controller

/-- How a program of the chain may end other than by returning. -/
inductive Halt
  | thrown
  | endless
  | undefined
  deriving DecidableEq

/-- Programs on the block chain. -/
abbrev ChainM := EStateM Halt BlockChain

/-- The blocks that an import took off the chain and put on it, and what its callback was told. -/
structure ImportRoute where
  dead : List Hash
  fresh : List Hash
  reported : Option (U32 × Hash)

namespace ImportRoute

/-- The route of an import that was refused, or that changed nothing of the chain. -/
def none : ImportRoute := ⟨[], [], .none⟩

end ImportRoute

/-- What an import collects to be stored about the blocks that it puts on the chain. -/
structure ExtrasBatch where
  blocksBlooms : List (ℕ × BlocksBlooms)
  transactionAddresses : List (Hash × TransactionAddress)
  blockHashes : List (ℕ × Hash)

namespace ExtrasBatch

/-- A batch with nothing in it. -/
def empty : ExtrasBatch := ⟨[], [], []⟩

/-- A batch followed by another one. -/
def append (a b : ExtrasBatch) : ExtrasBatch :=
  ⟨a.blocksBlooms ++ b.blocksBlooms, a.transactionAddresses ++ b.transactionAddresses,
    a.blockHashes ++ b.blockHashes⟩

end ExtrasBatch

namespace Database

/-- Undo sessions until a block is the head, as long as there are sessions. -/
def undoUntil (firstValid : U32) : ℕ → Database → Except Halt Database
  | 0, db =>
    -- Without sessions, undoing changes nothing, so the loop goes on for ever.
    if db.dynamic.headBlockNumber = firstValid then .ok db else .error .endless
  | sessions + 1, db =>
    if db.dynamic.headBlockNumber = firstValid then .ok db
    else
      match db.undo with
      | none => .error .undefined
      | some db => undoUntil firstValid sessions db

/-- Undo until the block with a number is the head. -/
def databaseReversion (firstValid : U32) (db : Database) : Except Halt Database :=
  undoUntil firstValid db.dynamicGlobalProperties.stack.length db

end Database

namespace BlockChain

section Reads

variable (bc : BlockChain)

/-- What is known about a block. -/
def details (hash : Hash) : BlockDetails := (bc.detailsTable.find hash).getD .null

/-- The parent of a block, null if the block is not known. -/
def parent (hash : Hash) : Hash := (bc.details hash).parent

/-- The number of a block. -/
def number (hash : Hash) : ℕ := (bc.details hash).number

/-- The hash of the block with a number on the chain, null if there is none. -/
def numberHash (number : ℕ) : Hash :=
  if number = 0 then bc.genesisHash else (bc.blockHashes.find number).getD 0

/-- Whether a block is stored and noted, and not above the head if that is asked for. -/
def isKnown (hash : Hash) (isCurrent : Bool) : Bool :=
  hash == bc.genesisHash ||
    bc.blocks.contains hash && (bc.detailsTable.find hash).isSome &&
      (!isCurrent || bc.number hash ≤ bc.lastBlockNumber)

/-- The parent that the header of the head names. -/
def infoParentHash : Hash := (bc.blocks[bc.lastBlockHash]?.map (·.header.parentHash)).getD 0

/-- The last block that the database takes to be irreversible. -/
def irreversibleBlockNum : ℕ := bc.chainController.db.dynamic.lastIrreversibleBlockNum.toNat

/-- The way from one known block to another, unless their common ancestor lies before the last
irreversible block. -/
def treeRoute (old new : Hash) : Option (Ancestry.Route Hash) :=
  Ancestry.route bc.parent bc.number bc.irreversibleBlockNum old new

end Reads

/-- What is asked of the chain between imports, and by others while an import is going on. -/
inductive Query
  | details (hash : Hash)
  | numberHash (number : ℕ)
  | transactionAddress (hash : Hash)
  | blocksBlooms (chunkId : ℕ)

/-- A query fills the cache it goes through. -/
def ask (bc : BlockChain) : Query → BlockChain
  | .details hash => { bc with detailsTable := bc.detailsTable.query hash }
  | .numberHash number =>
    if number = 0 then bc else { bc with blockHashes := bc.blockHashes.query number }
  | .transactionAddress hash =>
    { bc with transactionAddresses := bc.transactionAddresses.query hash }
  | .blocksBlooms id => { bc with blocksBlooms := bc.blocksBlooms.query id }

/-- Run a program of the chain controller, which looks up hashes in the chain. -/
def onController {α : Type} (x : EStateM Failure Controller α) : ChainM α := fun bc =>
  match x.run { bc.chainController with numberHash := fun n => bc.numberHash n.toNat } with
  | .ok a c => .ok a { bc with chainController := c }
  | .error .undefinedBehaviour c => .error .undefined { bc with chainController := c }
  | .error _ c => .error .thrown { bc with chainController := c }

/-- Clear what is cached about blocks from a number on. -/
def clearCachesDuringChainReversion (firstInvalid : ℕ) (bc : BlockChain) : BlockChain :=
  let last := bc.lastBlockNumber + 1
  { bc with
    blockHashes := bc.blockHashes.eraseAll (List.range' firstInvalid (last - firstInvalid))
    transactionAddresses := bc.transactionAddresses.clear
    blocksBlooms := BloomIndex.clearBlockBlooms firstInvalid last bc.blocksBlooms }

/-- Put the consensus database back to a block, and rebuild the votes remembered there. -/
def revertTo (common : Hash) : ChainM Unit := fun bc =>
  let bc := clearCachesDuringChainReversion (bc.number common + 1) bc
  match Database.databaseReversion (BitVec.ofNat 32 (bc.number common)) bc.chainController.db with
  | .error halt => .error halt bc
  | .ok db =>
    let c := { bc.chainController with db }
    match bc.blocks[common]? with
    | none => .error .thrown { bc with chainController := c }
    | some block =>
      .ok () { bc with
        chainController := Controller.initAllvotes block.header.number block.view.votes c }

/-- What is stored about a block that is on the chain. -/
def collate (block : Block) (bc : BlockChain) : ExtrasBatch where
  blocksBlooms := (BloomIndex.alteredBlooms block.number).map fun id =>
    (id, bc.blocksBlooms.cache.getD id .null)
  transactionAddresses := block.transactions.mapIdx fun index transaction =>
    (transaction.sha3, ⟨block.header.hash, index⟩)
  blockHashes := [(block.number, block.header.hash)]

/-- Push one block to the consensus database, and add its bloom to those in memory. -/
def pushBlock (block : Block) : ChainM Unit := do
  let bc ← get
  -- The head is the one from before the import until the whole branch is pushed.
  onController (Controller.pushBlock bc.infoParentHash block.view block.header)
  modify fun bc =>
    { bc with blocksBlooms := BloomIndex.addBloom block.number block.blockBloom bc.blocksBlooms }

/-- Push the blocks of a branch, first the lowest, and collect what is to be stored. -/
def pushBranch : List Block → ChainM ExtrasBatch
  | [] => return .empty
  | block :: rest => do
    pushBlock block
    let batch := collate block (← get)
    let others ← pushBranch rest
    return batch.append others

/-- Go on after an exception, but not after anything worse. -/
def catching {α : Type} (x handler : ChainM α) : ChainM α :=
  tryCatch x fun halt =>
    match halt with
    | .thrown => handler
    | other => throw other

/-- Push a branch from the common block, or go back to the branch from before. -/
def enactBranch (common : Hash) (old new : List Block) : ChainM (Option ExtrasBatch) := do
  let bc ← get
  if common ≠ bc.lastBlockHash then revertTo common
  catching (do return some (← pushBranch new)) do
    revertTo common
    let _ ← pushBranch old
    return none

/-- Note a block as a child of its parent, for now in memory. -/
def noteChild (block : Block) (bc : BlockChain) : BlockChain :=
  { bc with
    detailsTable := bc.detailsTable.change block.header.parentHash .null fun details =>
      { details with children := details.children ++ [block.header.hash] } }

/-- Store a block, what is noted about it, and its parent's list of children. -/
def store (block : Block) (bc : BlockChain) : BlockChain :=
  { bc with
    blocks := bc.blocks.insert block.header.hash block
    detailsTable := bc.detailsTable.write
      [(block.header.parentHash, bc.detailsTable.cache.getD block.header.parentHash .null),
        (block.header.hash, ⟨block.number, block.header.parentHash, []⟩)] }

/-- Store what was collected about a branch. -/
def storeExtras (batch : ExtrasBatch) (bc : BlockChain) : BlockChain :=
  { bc with
    blocksBlooms := bc.blocksBlooms.write batch.blocksBlooms
    transactionAddresses := bc.transactionAddresses.write batch.transactionAddresses
    blockHashes := bc.blockHashes.write batch.blockHashes }

/-- Make a block the head, once its branch is pushed and stored. -/
def setHead (common : Hash) (block : Block) (bc : BlockChain) : BlockChain :=
  -- After a switch the caches are cleared once more, with the blooms of the new branch in them.
  let bc := if common ≠ bc.lastBlockHash then
    clearCachesDuringChainReversion (bc.number common + 1) bc else bc
  { bc with
    lastBlockHash := block.header.hash
    lastBlockNumber := block.number }

/-- Insert a verified block whose parent is known, and make it the head if it is higher. While its
branch is pushed, others ask the chain. -/
def insertBlockAndExtras (block : Block) (asked : List Query) : ChainM ImportRoute := do
  modify (noteChild block)
  let bc ← get
  if bc.lastBlockNumber < block.number then
    match bc.treeRoute bc.lastBlockHash block.header.parentHash with
    | none => return .none
    | some route =>
      let new := route.fresh.reverse.filterMap (bc.blocks[·]?) ++ [block]
      let old := route.dead.reverse.filterMap (bc.blocks[·]?)
      match ← catching (enactBranch route.common old new) (return none) with
      | none => return .none
      | some batch =>
        modify fun bc => asked.foldl ask bc
        modify fun bc => setHead route.common block (storeExtras batch (store block bc))
        let c := (← get).chainController
        return {
          dead := route.dead
          fresh := route.fresh.reverse ++ [block.header.hash]
          reported := some (c.lastIrreversibleBlockNum, c.lastIrreversibleBlockHash) }
  else
    modify (store block)
    return .none

/-- Whether a header can follow that of its parent. -/
def verify (parent header : BlockHeader) : Bool :=
  header.number.toNat < 2 ^ 32 && header.number = parent.number + 1 &&
    parent.timestamp < header.timestamp

/-- Import a block that is new and follows a block that is known. -/
def importBlock (block : Block) (asked : List Query) : ChainM ImportRoute := do
  let bc ← get
  if bc.isKnown block.header.hash true then throw .thrown
  if !bc.isKnown block.header.parentHash false then throw .thrown
  match bc.blocks[block.header.parentHash]? with
  | none => throw .thrown
  | some parent =>
    if !verify parent.header block.header then throw .thrown
    insertBlockAndExtras block asked

/-- The block chain with nothing but its first block. -/
def start (genesis : Block) (initialProducers : List Address) : Option BlockChain :=
  if genesis.header.number ≠ 0 ∨ genesis.header.parentHash ≠ 0 then none
  else do
    let c ← Controller.initializeChain initialProducers
    let hash := genesis.header.hash
    return {
      blocks := (∅ : Std.ExtTreeMap Hash Block).insert hash genesis
      detailsTable := ⟨(∅ : Std.ExtTreeMap Hash BlockDetails).insert hash ⟨0, 0, []⟩, ∅⟩
      blockHashes := ⟨∅, ∅⟩
      transactionAddresses := ⟨∅, ∅⟩
      blocksBlooms := ⟨∅, ∅⟩
      genesisHash := hash
      lastBlockHash := hash
      lastBlockNumber := 0
      chainController := { c with lastIrreversibleBlockHash := hash } }

/-- What happens to a chain: an import, a query, or that the caches are emptied. -/
inductive Call
  | importBlock (block : Block) (asked : List Query)
  | ask (query : Query)
  | garbageCollect

/-- The chain after a block was imported or refused, if the import ends. -/
def receive (bc : BlockChain) (block : Block) (asked : List Query) : Option BlockChain :=
  match (importBlock block asked).run bc with
  | .ok _ bc => some bc
  | .error .thrown bc => some bc
  | .error _ _ => none

/-- Empty the caches, except that of the hashes. -/
def garbageCollect (bc : BlockChain) : BlockChain :=
  { bc with
    detailsTable := bc.detailsTable.clear
    transactionAddresses := bc.transactionAddresses.clear
    blocksBlooms := bc.blocksBlooms.clear }

/-- The chain after a call, if it ends. -/
def call (bc : BlockChain) : Call → Option BlockChain
  | .importBlock block asked => bc.receive block asked
  | .ask query => some (bc.ask query)
  | .garbageCollect => some bc.garbageCollect

/-- The chain after calls one after another. -/
def calls (bc : BlockChain) (cs : List Call) : Option BlockChain := cs.foldlM call bc

end BlockChain

end Etiam
