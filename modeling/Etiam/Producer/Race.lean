import Etiam.State.World

/-! The virtual race that picks runner-up producers, with the settings of the producer library. -/

namespace Etiam

/-- The host's unsigned 32-bit integer. -/
abbrev U32 := BitVec 32

/-- Race positions and race times. -/
abbrev UInt128 := BitVec 128

/-- A signed 64-bit vote count, kept as its two's-complement bits. -/
abbrev ShareType := BitVec 64

/-- The largest race time. -/
def maxUInt128 : UInt128 := BitVec.allOnes 128

/-- The exceptions that applying a block can end with. -/
inductive Failure where
  | invalidSignature
  | invalidProducer
  | invalidRunningVersion
  | unknownHardfork
  | hardforkApplyOutOfOrder
  | noEnoughProducers
  | outOfRange
  | logicError
  | overflowError
  | undefinedBehaviour
  deriving DecidableEq, Repr

namespace Config

/-- The seconds of one slot. -/
def blockIntervalSeconds : Nat := 3

/-- The block up to which proof-of-work producers fill every free place. -/
def startMinerVotingBlock : Nat := 84

/-- The places of a round for the producers with the most votes. -/
def dposVotedProducersPerRound : Nat := 16

/-- The places of a round for producers that complete a lap of the race. -/
def dposRunnerupProducersPerRound : Nat := 1

/-- The places of a round for proof-of-work producers once voting has started. -/
def powProducersPerRound : Nat := 4

/-- The places of a round. -/
def totalProducersPerRound : Nat := 21

/-- The whole in hundredths of a percent. -/
def percent100 : Nat := 10000

/-- The share of producers that makes a block irreversible, in hundredths of a percent. -/
def irreversibleThresholdPercent : Nat := 7000

/-- The number of hardforks this version knows. -/
def etiHardforkNum : Nat := 0

/-- The producers that must vote for a hardfork. -/
def etiHardforkRequiredProducers : Nat := 1

/-- The length of the race track. -/
def producerRaceLapLength : UInt128 := maxUInt128

end Config

/-- A producer's place in the race, where its speed is the votes it received. -/
@[ext] structure Race where
  speed : ShareType := 0
  position : UInt128 := 0
  positionUpdateTime : UInt128 := 0
  projectedFinishTime : UInt128 := maxUInt128
  deriving DecidableEq

namespace Race

/-- The place of a producer that has no votes yet. -/
def start : Race := {}

/-- The time a producer needs for what is left of its lap, without end for one that stands still. -/
def timeToFinish (speed : ShareType) (position : UInt128) : UInt128 :=
  if 0 < speed.toInt then (Config.producerRaceLapLength - position) / speed.signExtend 128
  else maxUInt128

/-- Set the place of a producer, refusing a finish after the end of race time. -/
@[irreducible] def update (currentSpeed : ShareType) (currentPosition currentRaceTime : UInt128) :
    Except Failure Race :=
  let projectedTimeToFinish := timeToFinish currentSpeed currentPosition
  if maxUInt128 - projectedTimeToFinish < currentRaceTime then .error .overflowError
  else .ok
    { speed := currentSpeed
      position := currentPosition
      positionUpdateTime := currentRaceTime
      projectedFinishTime := currentRaceTime + projectedTimeToFinish }

/-- The place a producer has reached at a race time. -/
def positionAt (race : Race) (currentRaceTime : UInt128) : UInt128 :=
  race.position + race.speed.signExtend 128 * (currentRaceTime - race.positionUpdateTime)

/-- Change a producer's votes, which are its speed from here on. -/
def updateVotes (deltaVotes : ShareType) (currentRaceTime : UInt128) (race : Race) :
    Except Failure Race :=
  update (race.speed + deltaVotes) (race.positionAt currentRaceTime) currentRaceTime

/-- Put a producer back on the starting line. -/
def startNewRaceLap (currentRaceTime : UInt128) (race : Race) : Except Failure Race :=
  update race.speed 0 currentRaceTime

theorem update_isOk_iff (speed : ShareType) (position now : UInt128) :
    (∃ race, update speed position now = .ok race) ↔
      now.toNat + (timeToFinish speed position).toNat < 2 ^ 128 := by
  have sub : (maxUInt128 - timeToFinish speed position).toNat =
      2 ^ 128 - 1 - (timeToFinish speed position).toNat := by
    have bound := (timeToFinish speed position).isLt
    rw [maxUInt128, BitVec.toNat_sub_of_le (by rw [BitVec.le_def, BitVec.toNat_allOnes]; omega),
      BitVec.toNat_allOnes]
  have bound := (timeToFinish speed position).isLt
  simp only [update, BitVec.lt_def, sub]
  split
  · next late =>
    constructor
    · rintro ⟨race, same⟩
      cases same
    · omega
  · next early =>
    constructor
    · intro _
      omega
    · intro _
      exact ⟨_, rfl⟩

variable {speed : ShareType} {now : UInt128} {race : Race}

theorem timeToFinish_of_not_pos (still : ¬ 0 < speed.toInt)
    (position : UInt128) : timeToFinish speed position = maxUInt128 := by
  rw [timeToFinish, if_neg still]

theorem speed_of_update {position : UInt128}
    (done : update speed position now = .ok race) : race.speed = speed := by
  simp only [update] at done
  split at done
  · cases done
  · cases done
    rfl

/-- The place on the starting line at a race time. -/
def lapAt (now : UInt128) (race : Race) : Race where
  speed := race.speed
  position := 0
  positionUpdateTime := now
  projectedFinishTime := now + timeToFinish race.speed 0

@[simp] theorem speed_lapAt (now : UInt128) (race : Race) : (lapAt now race).speed = race.speed :=
  rfl

/-- Whether a lap that starts at a race time ends within race time. -/
def Fits (now : UInt128) (race : Race) : Prop :=
  now.toNat + (timeToFinish race.speed 0).toNat < 2 ^ 128

instance (now : UInt128) (race : Race) : Decidable (Fits now race) :=
  inferInstanceAs (Decidable (_ < _))

theorem fits_zero (race : Race) : Fits 0 race := by
  have bound := (timeToFinish race.speed 0).isLt
  simpa [Fits] using bound

theorem startNewRaceLap_eq (fits : Fits now race) :
    startNewRaceLap now race = .ok (lapAt now race) := by
  obtain ⟨lap, started⟩ := (update_isOk_iff race.speed 0 now).mpr fits
  have made := started
  simp only [update] at made
  split at made
  · cases made
  · cases made
    exact started

theorem finish_lapAt (fits : Fits now race) :
    (lapAt now race).projectedFinishTime.toNat =
      now.toNat + (timeToFinish race.speed 0).toNat :=
  BitVec.toNat_add_of_lt fits

theorem toNat_timeToFinish (moving : 0 < speed.toInt) :
    (timeToFinish speed 0).toNat = Config.producerRaceLapLength.toNat / speed.toNat := by
  have plain : speed.msb = false := by
    rw [BitVec.msb_eq_toInt]
    simpa using moving.le
  rw [timeToFinish, if_pos moving, BitVec.toNat_udiv, show (0 : UInt128) = 0#128 from rfl,
    BitVec.sub_zero, BitVec.signExtend_eq_setWidth_of_msb_false plain,
    BitVec.toNat_setWidth_of_le (by omega)]

end Race

end Etiam
