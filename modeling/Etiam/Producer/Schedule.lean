import Etiam.Producer.Database

/-! The choice of the next round of producers and the virtual race behind it. -/

namespace Etiam

/-- An object of the index of votes: its owner, its id and its place in the race. -/
abbrev ProducerVotesObject := Address × Stored Race

namespace Index

/-- Whether one object comes before another by votes, most votes and then latest id first. -/
def votesBefore (p q : ProducerVotesObject) : Prop :=
  q.2.value.speed.toInt < p.2.value.speed.toInt ∨
    (p.2.value.speed = q.2.value.speed ∧ q.2.id ≤ p.2.id)

/-- Whether one object comes before another by finish time and then id. -/
def finishesBefore (p q : ProducerVotesObject) : Prop :=
  p.2.value.projectedFinishTime < q.2.value.projectedFinishTime ∨
    (p.2.value.projectedFinishTime = q.2.value.projectedFinishTime ∧ p.2.id ≤ q.2.id)

instance : DecidableRel votesBefore := fun _ _ => inferInstanceAs (Decidable (_ ∨ _))

instance : DecidableRel finishesBefore := fun _ _ => inferInstanceAs (Decidable (_ ∨ _))

/-- The owners by votes, from most to least. -/
def byVotes (ix : Index Address Race) : List Address :=
  (ix.entries.toList.insertionSort votesBefore).map (·.1)

/-- The owners by projected finish time, from soonest to latest. -/
def byProjectedRaceFinishTime (ix : Index Address Race) : List Address :=
  (ix.entries.toList.insertionSort finishesBefore).map (·.1)

/-- The owners in the queue for proof of work, first come first. -/
def byPow (ix : Index Address ProducerObject) : List Address :=
  ((ix.entries.toList.filter fun entry => entry.2.value.powWorker ≠ 0).insertionSort
    fun p q => p.2.value.powWorker ≤ q.2.value.powWorker).map (·.1)

end Index

namespace Schedule

open Database

/-- Take a producer out of the queue for proof of work. -/
def leavePow (owner : Address) : DbM Unit := do
  modifyProducer owner fun p => { p with powWorker := 0 }
  modifyDynamic fun d => { d with numPowWitnesses := d.numPowWitnesses - 1 }

/-- Drop the first of the queue when more are queued than a round has places. -/
def dropSurplusPow : DbM Unit := do
  let db ← get
  if Config.totalProducersPerRound < db.dynamic.numPowWitnesses.toNat then
    match db.producers.byPow.head? with
    | some owner => leavePow owner
    | none => return

/-- Take producers from the queue for proof of work, as long as there are places. -/
def takePow : ℕ → ℕ → List Address → List Address → DbM (List Address)
  | 0, _, _, _ => return []
  | _, 0, _, _ => return []
  | _, _, _, [] => return []
  | fuel + 1, places + 1, processed, owner :: rest =>
    if owner ∈ processed then takePow fuel (places + 1) processed rest
    else do
      leavePow owner
      -- The iterator moved with its object behind the objects at zero, so the next object is the
      -- first that is still queued.
      let db ← get
      if (db.producerVotes.find owner).isNone then
        let taken ← takePow fuel places (owner :: processed) db.producers.byPow
        return owner :: taken
      else takePow fuel (places + 1) processed db.producers.byPow

/-- Put every producer back on the starting line and the race time back to zero. -/
def resetProducerRace : DbM Unit := do
  let db ← get
  db.producerVotes.byVotes.forM fun owner =>
    onVotes (Index.change owner (Race.startNewRaceLap 0))
  setRaceTime 0

/-- The producers that finish their lap no later than the runner-up, in that order. -/
def lapCompleters (ix : Index Address Race) (runnerup : Address) : List Address :=
  ix.byProjectedRaceFinishTime.takeWhile (· ≠ runnerup) ++ [runnerup]

/-- Start everyone who finished a lap on the next one. -/
def startNewLaps (completers : List Address) (newRaceTime : UInt128) : DbM Unit := do
  -- An object that lands among those still to come is visited again, which changes nothing.
  completers.forM fun owner => onVotes (Index.change owner (Race.startNewRaceLap newRaceTime))
  setRaceTime newRaceTime

/-- Advance the race to the finish of the runner-up, or start it over when it cannot go on. -/
def advanceRace (runnerup : Address) : DbM Unit := do
  let race ← onVotes (Index.get runnerup)
  let db ← get
  let completers := lapCompleters db.producerVotes runnerup
  tryCatch
    (if completers.length < db.producerVotes.entries.size ∧
        race.projectedFinishTime < maxUInt128 then
      startNewLaps completers race.projectedFinishTime
    else resetProducerRace)
    fun _ => resetProducerRace

/-- The places left for proof of work once others have been chosen. -/
def powPlaces (headBlockNumber : U32) (alreadySelected : ℕ) : ℕ :=
  if Config.startMinerVotingBlock < headBlockNumber.toNat then Config.powProducersPerRound
  else Config.totalProducersPerRound - alreadySelected

/-- Whether producers with votes get places in the round. -/
def votingCounts (db : Database) : Bool :=
  db.dynamic.numPowWitnesses = 0 ∨
    Config.startMinerVotingBlock < db.dynamic.headBlockNumber.toNat

/-- The producers of the round by votes. -/
def voted (db : Database) : List Address :=
  if votingCounts db then db.producerVotes.byVotes.take Config.dposVotedProducersPerRound else []

/-- The producers of the round by the race, first to finish among those without a place. -/
def runnersup (db : Database) : List Address :=
  if votingCounts db then
    (db.producerVotes.byProjectedRaceFinishTime.filter (· ∉ voted db)).take
      Config.dposRunnerupProducersPerRound
  else []

/-- Fill the places that are left of a round, first from the queue for proof of work. -/
def fillRound (selected : List Address) : DbM (List Address) := do
  dropSurplusPow
  let db ← get
  let queue := db.producers.byPow
  let places := powPlaces db.dynamic.headBlockNumber selected.length
  let workers ← takePow ((queue.length + 1) * (queue.length + 1)) places selected queue
  let chosen := selected ++ workers
  return chosen ++ List.replicate (Config.totalProducersPerRound - chosen.length) 0

/-- Choose the producers of the next round. -/
def calculateNextRound : DbM (List Address) := do
  let db ← get
  if db.producerVotes.entries.size = 0 then throw .noEnoughProducers
  let round ← fillRound (voted db ++ runnersup db)
  match (runnersup db).getLast? with
  | none => return round
  | some runnerup => do
    advanceRace runnerup
    return round

end Schedule

end Etiam
