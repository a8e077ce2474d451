import Etiam.Library.Exec
import Etiam.Library.UndoIndex
import Etiam.Producer.Race

/-! The objects of the consensus database and the programs that read and change them. -/

namespace Etiam

/-- A block producer as the chain has come to know it. -/
structure ProducerObject where
  lastAslot : U64 := 0
  totalMissed : BitVec 64 := 0
  lastConfirmedBlockNum : U32 := 0
  powWorker : U64 := 0
  runningVersion : U32 := 0
  hardforkVerVote : U32 := 0
  hardforkTimeVote : U32 := 0
  deriving DecidableEq

/-- The producers of the round and the state of hardforks. -/
structure GlobalPropertyObject where
  activeProducers : Vector Address Config.totalProducersPerRound
  lastHardfork : ℕ := 0
  currentHardforkVersion : U32 := 0
  nextHardfork : U32 := 0
  nextHardforkTime : U32 := 0
  deriving DecidableEq

/-- What every block changes. -/
structure DynamicGlobalPropertyObject where
  headBlockNumber : U32 := 0
  headBlockId : Hash := 0
  time : U32
  currentAbsoluteSlot : U64 := 0
  recentSlotsFilled : U64
  lastIrreversibleBlockNum : U32 := 0
  totalPow : U64 := 0
  numPowWitnesses : U32 := 0
  deriving DecidableEq

/-- The consensus database: one index for each type of object. -/
structure Database where
  globalProperties : Cell GlobalPropertyObject
  dynamicGlobalProperties : Cell DynamicGlobalPropertyObject
  currentRaceTime : Cell UInt128
  producerVotes : Index Address Race
  producers : Index Address ProducerObject

namespace Index

variable {V : Type}

/-- Get the object of an owner, which must be there. -/
def get (owner : Address) : EStateM Failure (Index Address V) V := fun ix =>
  match ix.find owner with
  | none => .error .outOfRange ix
  | some value => .ok value ix

/-- Create the object of an owner. -/
def create (owner : Address) (constructor : Except Failure V) :
    EStateM Failure (Index Address V) Unit := fun ix =>
  match constructor with
  | .error e => .error e ix
  | .ok value =>
    match ix.emplace owner value with
    | none => .error .logicError ix
    | some made => .ok () made

/-- Change the object of an owner. Where the modifier throws, boost's index is taken to erase the
object before it passes the exception on, without telling the undo state. -/
def change (owner : Address) (modifier : V → Except Failure V) :
    EStateM Failure (Index Address V) Unit := fun ix =>
  match ix.find owner with
  | none => .error .outOfRange ix
  | some old =>
    match modifier old with
    | .error e => .error e (ix.lose owner)
    | .ok value => .ok () (ix.modify owner value)

/-- Delete the object of an owner. -/
def delete (owner : Address) : EStateM Failure (Index Address V) Unit := fun ix =>
  match ix.find owner with
  | none => .error .outOfRange ix
  | some _ => .ok () (ix.remove owner)

section Runs

variable {ix : Index Address V} {owner : Address} {old value : V} {e : Failure}

theorem run_get (found : ix.find owner = some old) : (get owner).run ix = .ok old ix := by
  simp [get, EStateM.run, found]

theorem run_get_none (absent : ix.find owner = none) :
    (get owner).run ix = .error .outOfRange ix := by
  simp [get, EStateM.run, absent]

/-- Reading an object changes nothing. -/
theorem final_get : Exec.final ((get owner).run ix) = ix := by
  cases found : ix.find owner with
  | none => rw [run_get_none found, Exec.final_error]
  | some value => rw [run_get found, Exec.final_ok]

theorem run_create {made : Index Address V} (created : ix.emplace owner value = some made) :
    (create owner (.ok value)).run ix = .ok () made := by
  simp [create, EStateM.run, created]

theorem run_create_taken (taken : ix.emplace owner value = none) :
    (create owner (.ok value)).run ix = .error .logicError ix := by
  simp [create, EStateM.run, taken]

theorem run_create_error : (create owner (.error e)).run ix = .error e ix := rfl

variable {modifier : V → Except Failure V}

theorem run_change (found : ix.find owner = some old) (made : modifier old = .ok value) :
    (change owner modifier).run ix = .ok () (ix.modify owner value) := by
  simp [change, EStateM.run, found, made]

theorem run_change_none (absent : ix.find owner = none) :
    (change owner modifier).run ix = .error .outOfRange ix := by
  simp [change, EStateM.run, absent]

theorem run_change_error (found : ix.find owner = some old) (failed : modifier old = .error e) :
    (change owner modifier).run ix = .error e (ix.lose owner) := by
  simp [change, EStateM.run, found, failed]

theorem run_delete (found : ix.find owner = some old) :
    (delete owner).run ix = .ok () (ix.remove owner) := by
  simp [delete, EStateM.run, found]

theorem run_delete_none (absent : ix.find owner = none) :
    (delete owner).run ix = .error .outOfRange ix := by
  simp [delete, EStateM.run, absent]

end Runs

end Index

/-- Programs on the consensus database. -/
abbrev DbM := EStateM Failure Database

namespace Database

/-- Run a program on the index of votes. -/
def onVotes {α : Type} (x : EStateM Failure (Index Address Race) α) : DbM α :=
  Exec.zoom producerVotes (fun ix db => { db with producerVotes := ix }) x

/-- Run a program on the index of producers. -/
def onProducers {α : Type} (x : EStateM Failure (Index Address ProducerObject) α) : DbM α :=
  Exec.zoom producers (fun ix db => { db with producers := ix }) x

/-- Change the producers of the round or the state of hardforks. -/
def modifyGlobal (f : GlobalPropertyObject → GlobalPropertyObject) : DbM Unit :=
  modify fun db => { db with globalProperties := db.globalProperties.modify f }

/-- Change the data that every block changes. -/
def modifyDynamic (f : DynamicGlobalPropertyObject → DynamicGlobalPropertyObject) : DbM Unit :=
  modify fun db => { db with dynamicGlobalProperties := db.dynamicGlobalProperties.modify f }

/-- Set the time of the race. -/
def setRaceTime (now : UInt128) : DbM Unit :=
  modify fun db => { db with currentRaceTime := db.currentRaceTime.modify fun _ => now }

/-- Change a producer in a way that cannot fail. -/
def modifyProducer (owner : Address) (f : ProducerObject → ProducerObject) : DbM Unit :=
  onProducers (Index.change owner fun p => .ok (f p))

/-- The data that every block changes. -/
def dynamic (db : Database) : DynamicGlobalPropertyObject := db.dynamicGlobalProperties.value

/-- The producers of the round and the state of hardforks. -/
def global (db : Database) : GlobalPropertyObject := db.globalProperties.value

/-- Open a session on every index. -/
def startUndoSession (db : Database) : Database where
  globalProperties := db.globalProperties.startUndoSession
  dynamicGlobalProperties := db.dynamicGlobalProperties.startUndoSession
  currentRaceTime := db.currentRaceTime.startUndoSession
  producerVotes := db.producerVotes.startUndoSession
  producers := db.producers.startUndoSession

/-- Undo the latest session of every index. -/
def undo (db : Database) : Option Database := do
  let producerVotes ← db.producerVotes.undo
  let producers ← db.producers.undo
  return {
    globalProperties := db.globalProperties.undo
    dynamicGlobalProperties := db.dynamicGlobalProperties.undo
    currentRaceTime := db.currentRaceTime.undo
    producerVotes
    producers }

/-- Forget how to undo the sessions up to a revision, on every index. -/
def commit (db : Database) (revision : ℕ) : Database where
  globalProperties := db.globalProperties.commit revision
  dynamicGlobalProperties := db.dynamicGlobalProperties.commit revision
  currentRaceTime := db.currentRaceTime.commit revision
  producerVotes := db.producerVotes.commit revision
  producers := db.producers.commit revision

end Database

end Etiam
