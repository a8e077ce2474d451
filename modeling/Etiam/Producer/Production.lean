import Etiam.Producer.Slots
import Etiam.Block.Seal

/-! When a producer makes a block, and that the block is in the slot the others expect it in. -/

namespace Etiam

open Controller

/-- What came of an attempt to produce a block. -/
inductive BlockProductionCondition where
  | produced
  | notSynced
  | notMyTurn
  | notTimeYet
  | noPrivateKey
  | lowParticipation
  | lag
  | consecutive
  | exceptionProducingBlock
  deriving DecidableEq

/-- The part of a node that makes blocks, for private keys of any kind. -/
structure ProducerPlugin (Key : Type) where
  productionEnabled : Bool
  producers : List Address
  privateKeys : Std.ExtTreeMap Address Key

/-- How far an attempt to produce a block gets. -/
inductive Attempt (Key : Type) where
  /-- No block is made. -/
  | skipped (why : BlockProductionCondition)
  /-- The client is asked for a block at a time, of a producer and with its key. -/
  | generateBlock (time : U32) (producer : Address) (key : Key)
  deriving DecidableEq

namespace ProducerPlugin

variable {Key : Type}

/-- The clock of the machine, in microseconds, as the nearest second. -/
def nowSeconds (nowFine : ℕ) : U32 := BitVec.ofNat 32 ((nowFine + 500000) / 1000000)

/-- Whether two times are more than half a second apart. -/
def lags (scheduledTime now : U32) : Bool :=
  500000 < (((scheduledTime.toNat : ℤ) - now.toNat) * 1000000).natAbs

/-- Make a block if the slot has come, it is a slot of this node, and the node is in time. -/
def maybeProduceBlock (plugin : ProducerPlugin Key) (db : Database) (nowFine : ℕ) :
    ProducerPlugin Key × Attempt Key :=
  let now := nowSeconds nowFine
  -- The node is in step with the others once the next slot has not started yet.
  if !plugin.productionEnabled && decide (db.getSlotTime 1 < now) then (plugin, .skipped .notSynced)
  else
    let plugin := { plugin with productionEnabled := true }
    let slot := db.getSlotAtTime now
    if slot = 0 then (plugin, .skipped .notTimeYet)
    else
      let scheduledProducer := db.getScheduledProducer slot
      if scheduledProducer ∉ plugin.producers then (plugin, .skipped .notMyTurn)
      else
        let scheduledTime := db.getSlotTime slot
        match plugin.privateKeys[scheduledProducer]? with
        | none => (plugin, .skipped .noPrivateKey)
        | some key =>
          if lags scheduledTime now then (plugin, .skipped .lag)
          else (plugin, .generateBlock scheduledTime scheduledProducer key)

/-- A block is made for the slot of the present time, at its start and by its producer. -/
theorem maybeProduceBlock_generates {plugin plugin' : ProducerPlugin Key} {db : Database}
    {nowFine : ℕ} {time : U32} {producer : Address} {key : Key}
    (made : plugin.maybeProduceBlock db nowFine = (plugin', .generateBlock time producer key)) :
    db.getSlotAtTime (nowSeconds nowFine) ≠ 0 ∧
      time = db.getSlotTime (db.getSlotAtTime (nowSeconds nowFine)) ∧
      producer = db.getScheduledProducer (db.getSlotAtTime (nowSeconds nowFine)) := by
  unfold maybeProduceBlock at made
  dsimp only at made
  -- Every branch but the last one skips the slot.
  split at made
  · cases made
  · split at made
    · cases made
    · next later =>
      split at made
      · cases made
      · split at made
        · cases made
        · split at made
          · cases made
          · cases made
            exact ⟨later, rfl, rfl⟩

end ProducerPlugin

theorem ActiveBlock.timestamp_commitToSeal {sealer : Sealer} {extraData : Bytes}
    {b b' : ActiveBlock} (committed : b.commitToSeal sealer extraData = some b') :
    b'.currentBlock.timestamp = b.currentBlock.timestamp := by
  cases closed : b.isSealed with
  | false =>
    rw [commitToSeal_eq closed, Option.some.injEq] at committed
    rw [← committed]
  | true =>
    rw [commitToSeal, if_pos closed] at committed
    cases committed

theorem WorkingBlock.timestamp_generateBlock {sealer : Sealer} {time : U256} {extraData : Bytes}
    {runningVersion hardforkVersion hardforkTime : U32} {signer : Hash → Signature}
    {w w' : WorkingBlock} {header : Bytes}
    (made : w.generateBlock sealer time extraData runningVersion hardforkVersion hardforkTime
      signer = some (header, w')) : (w'.sign sealer signer).timestamp = time := by
  unfold generateBlock at made
  dsimp only at made
  split at made
  · cases made
  · next b committed =>
    obtain ⟨-, rfl⟩ := Prod.mk.inj (Option.some.inj made)
    have kept := ActiveBlock.timestamp_commitToSeal committed
    unfold sign
    -- Neither the vote on hardforks nor the signature touches the time.
    dsimp only
    split <;> exact kept

namespace Controller

open Exec Database

/-- In every state of the database slots and times fit together, and every block that a producer
is asked to make is in a slot of that producer when it is checked in that state. -/
theorem produced_block_in_slot (db : Database) :
    (∀ slot : U32, slot ≠ 0 → db.slotStart slot.toNat < 2 ^ 32 →
      db.getSlotAtTime (db.getSlotTime slot) = slot) ∧
    (∀ time : U32, db.getSlotAtTime time ≠ 0 →
      db.slotStart ((db.getSlotAtTime time).toNat + 1) < 2 ^ 32 →
      db.getSlotTime (db.getSlotAtTime time) ≤ time ∧
        time < db.getSlotTime (db.getSlotAtTime time + 1)) ∧
    (db.slotStart 1 < 2 ^ 32 → ∀ (Key : Type) (plugin plugin' : ProducerPlugin Key) (nowFine : ℕ)
      (time : U32) (producer : Address) (key : Key),
      plugin.maybeProduceBlock db nowFine = (plugin', .generateBlock time producer key) →
      ∀ (sealer : Sealer) (extraData : Bytes) (runningVersion hardforkVersion hardforkTime : U32)
        (signer : Hash → Signature) (w w' : WorkingBlock) (header : Bytes),
      w.generateBlock sealer (time.setWidth 256) extraData runningVersion hardforkVersion
        hardforkTime signer = some (header, w') →
      ∀ b : BlockHeader, b.timestamp = (w'.sign sealer signer).timestamp → b.producer = producer →
        db.getScheduledProducer (db.getSlotAtTime b.time) = b.producer ∧
        (b.verifySign = true → db.producers.find b.producer ≠ none →
          (validateBlockHeader b).run db = .ok () db)) := by
  refine ⟨fun slot => db.getSlotAtTime_getSlotTime, fun time => db.getSlotTime_encloses, ?_⟩
  intro fits Key plugin plugin' nowFine time producer key made sealer extraData runningVersion
    hardforkVersion hardforkTime signer w w' header signed b stamped own
  obtain ⟨later, rfl, rfl⟩ := ProducerPlugin.maybeProduceBlock_generates made
  generalize ProducerPlugin.nowSeconds nowFine = now at later signed own
  -- The header carries the start of the slot, which is the slot the checker finds again.
  have begins : db.slotStart (db.getSlotAtTime now).toNat < 2 ^ 32 :=
    (db.slot_contains fits later).1.trans_lt now.isLt
  have found : db.getSlotAtTime b.time = db.getSlotAtTime now := by
    rw [BlockHeader.time, stamped, WorkingBlock.timestamp_generateBlock signed,
      BitVec.setWidth_setWidth_of_le _ (by decide), BitVec.setWidth_eq,
      db.getSlotAtTime_getSlotTime later begins]
  have turn : db.getScheduledProducer (db.getSlotAtTime b.time) = b.producer := by
    rw [found, own]
  exact ⟨turn, fun sign known => validateBlockHeader_eq_ok.mpr ⟨sign, turn, known, rfl⟩⟩

/-- Before the first block, the only producer makes its block in the slot of its first turn. -/
theorem produced_block_in_slot_genesis :
    let db := genesisDatabase [100]
    let plugin : ProducerPlugin Unit :=
      { productionEnabled := true, producers := [100]
        privateKeys := (∅ : Std.ExtTreeMap Address Unit).insert 100 () }
    let sealer : Sealer :=
      { sha3 := fun _ => 0, transactionRlp := fun _ => [], digest := .blank
        executor := Engine.plain.executor, blockReward := fun _ => 0 }
    let s : CachedState := { state := ∅, accountStartNonce := 0, engine := fun _ => 0 }
    let work : WorkingBlock := { block := .resetCurrent .blank 7 0 .blank s }
    db.getSlotAtTime (db.getSlotTime 21) = 21 ∧
      (db.getSlotTime 21 ≤ 1513580388 ∧ (1513580388 : U32) < db.getSlotTime 22) ∧
      (plugin.maybeProduceBlock db 1513580387000000).2 = .generateBlock 1513580387 100 () ∧
      (work.generateBlock sealer 1513580387 [] 0 0 0 fun _ => ⟨1, 1, 0⟩).isSome ∧
      db.getScheduledProducer (db.getSlotAtTime (BlockHeader.signed 100 1 1513580387).time) =
        100 := by
  intro db plugin sealer s work
  obtain ⟨back, between, checked⟩ := produced_block_in_slot db
  have slot : db.getSlotAtTime 1513580388 = 21 := by decide +kernel
  have enclosed := between 1513580388 (by rw [slot]; decide) (by rw [slot]; decide +kernel)
  rw [slot] at enclosed
  have attempt : (plugin.maybeProduceBlock db 1513580387000000).2 =
      .generateBlock 1513580387 100 () := by decide +kernel
  have made : (work.generateBlock sealer 1513580387 [] 0 0 0 fun _ => ⟨1, 1, 0⟩).isSome := by
    rfl
  obtain ⟨⟨header, work'⟩, generated⟩ := Option.isSome_iff_exists.mp made
  have stamped := WorkingBlock.timestamp_generateBlock generated
  exact ⟨back 21 (by decide) (by decide +kernel), enclosed, attempt, made,
    (checked (by decide +kernel) Unit plugin _ _ _ _ _ (Prod.ext rfl attempt) sealer [] 0 0 0 _
      work work'
      header generated (.signed 100 1 1513580387) stamped.symm rfl).1⟩

end Controller

end Etiam
