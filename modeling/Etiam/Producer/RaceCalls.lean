import Etiam.Producer.Fairness
import Etiam.Producer.Mirror

/-! What calls do to the race: whom a round restarts or loses, and that nothing wraps around. -/

namespace Etiam

open Exec Database

namespace Race

variable {race : Race} {now : UInt128} {speed : ShareType}

theorem lapAt_congr {other : Race} (same : other.speed = race.speed) (now : UInt128) :
    lapAt now other = lapAt now race := by
  rw [lapAt, lapAt, same]

theorem fits_congr {other : Race} (same : other.speed = race.speed) (now : UInt128) :
    Fits now other ↔ Fits now race := by
  rw [Fits, Fits, same]

theorem startNewRaceLap_unfit (unfit : ¬ Fits now race) :
    ∃ e, startNewRaceLap now race = .error e := by
  cases started : startNewRaceLap now race with
  | error e => exact ⟨e, rfl⟩
  | ok lap => exact absurd ((update_isOk_iff race.speed 0 now).mp ⟨lap, started⟩) unfit

/-- A place in the race that is up to date: its finish is computed without wrapping around, and the
race time lies between the last update and the finish. -/
structure OnTrack (now : UInt128) (race : Race) : Prop where
  votes : 0 ≤ race.speed.toInt
  updated : race.positionUpdateTime.toNat ≤ now.toNat
  finish : race.projectedFinishTime.toNat =
    race.positionUpdateTime.toNat + (timeToFinish race.speed race.position).toNat
  ahead : now.toNat ≤ race.projectedFinishTime.toNat

theorem toNat_remaining (position : UInt128) :
    (Config.producerRaceLapLength - position).toNat =
      Config.producerRaceLapLength.toNat - position.toNat := by
  have bound := position.isLt
  refine BitVec.toNat_sub_of_le ?_
  rw [BitVec.le_def, Config.producerRaceLapLength, maxUInt128, BitVec.toNat_allOnes]
  omega

theorem msb_of_votes (votes : 0 ≤ speed.toInt) : speed.msb = false := by
  rw [BitVec.msb_eq_toInt]
  simpa using votes

theorem toNat_eq_toInt (votes : 0 ≤ speed.toInt) :
    (speed.toNat : ℤ) = speed.toInt :=
  (BitVec.toInt_eq_toNat_of_msb (msb_of_votes votes)).symm

theorem toNat_speed (votes : 0 ≤ speed.toInt) :
    (speed.signExtend 128).toNat = speed.toNat := by
  have plain := msb_of_votes votes
  rw [BitVec.signExtend_eq_setWidth_of_msb_false plain, BitVec.toNat_setWidth_of_le (by omega)]

namespace OnTrack

variable {now : UInt128} {race : Race}

variable (onTrack : OnTrack now race)

include onTrack

theorem distance_le :
    race.position.toNat + race.speed.toNat * (now.toNat - race.positionUpdateTime.toNat) ≤
      Config.producerRaceLapLength.toNat := by
  have length : race.position.toNat ≤ Config.producerRaceLapLength.toNat := by
    have bound := race.position.isLt
    rw [Config.producerRaceLapLength, maxUInt128, BitVec.toNat_allOnes]
    omega
  have finish := onTrack.finish
  have ahead := onTrack.ahead
  by_cases moving : 0 < race.speed.toInt
  · -- The time since the last update is no more than was left then, so neither is the way.
    rw [timeToFinish, if_pos moving, BitVec.toNat_udiv, toNat_remaining,
      toNat_speed onTrack.votes] at finish
    have elapsed : now.toNat - race.positionUpdateTime.toNat ≤
        (Config.producerRaceLapLength.toNat - race.position.toNat) / race.speed.toNat := by
      generalize (Config.producerRaceLapLength.toNat - race.position.toNat) / race.speed.toNat =
        left at finish ⊢
      omega
    have way : race.speed.toNat * (now.toNat - race.positionUpdateTime.toNat) ≤
        Config.producerRaceLapLength.toNat - race.position.toNat :=
      calc race.speed.toNat * (now.toNat - race.positionUpdateTime.toNat)
          ≤ race.speed.toNat * ((Config.producerRaceLapLength.toNat - race.position.toNat) /
              race.speed.toNat) := Nat.mul_le_mul_left _ elapsed
        _ ≤ Config.producerRaceLapLength.toNat - race.position.toNat := Nat.mul_div_le _ _
    omega
  · -- Whoever has no votes stands still.
    have still : race.speed.toInt = 0 := le_antisymm (not_lt.mp moving) onTrack.votes
    have none : race.speed.toNat = 0 := by
      have zero : race.speed = 0 := BitVec.eq_of_toInt_eq (still.trans (by decide))
      rw [zero]
      rfl
    rw [none, Nat.zero_mul]
    omega

theorem toNat_elapsed : (now - race.positionUpdateTime).toNat =
    now.toNat - race.positionUpdateTime.toNat :=
  BitVec.toNat_sub_of_le (BitVec.le_def.mpr onTrack.updated)

theorem toNat_way :
    (race.speed.signExtend 128 * (now - race.positionUpdateTime)).toNat =
      race.speed.toNat * (now.toNat - race.positionUpdateTime.toNat) := by
  have distance := onTrack.distance_le
  have length : Config.producerRaceLapLength.toNat < 2 ^ 128 := BitVec.isLt _
  rw [BitVec.toNat_mul, toNat_speed onTrack.votes, onTrack.toNat_elapsed,
    Nat.mod_eq_of_lt (by omega)]

theorem toNat_positionAt :
    (race.positionAt now).toNat = race.position.toNat +
      race.speed.toNat * (now.toNat - race.positionUpdateTime.toNat) := by
  have distance := onTrack.distance_le
  have length : Config.producerRaceLapLength.toNat < 2 ^ 128 := BitVec.isLt _
  rw [positionAt, BitVec.toNat_add, onTrack.toNat_way, Nat.mod_eq_of_lt (by omega)]

end OnTrack

theorem finish_of_update {position : UInt128} (done : update speed position now = .ok race) :
    race.projectedFinishTime.toNat = now.toNat + (timeToFinish speed position).toNat := by
  have fits := (update_isOk_iff speed position now).mp ⟨race, done⟩
  simp only [update] at done
  split at done
  · cases done
  · cases done
    exact BitVec.toNat_add_of_lt fits

theorem onTrack_of_update {position : UInt128}
    (votes : 0 ≤ speed.toInt) (done : update speed position now = .ok race) :
    OnTrack now race ∧ race.speed = speed ∧ race.position = position ∧
      race.positionUpdateTime = now := by
  have finish := finish_of_update done
  simp only [update] at done
  split at done
  · cases done
  · cases done
    exact ⟨⟨votes, le_rfl, finish, by rw [finish]; omega⟩, rfl, rfl, rfl⟩

theorem onTrack_lapAt (votes : 0 ≤ race.speed.toInt)
    (fits : Fits now race) : OnTrack now (lapAt now race) :=
  (onTrack_of_update votes (startNewRaceLap_eq fits)).1

theorem OnTrack.later {next : UInt128} (onTrack : OnTrack now race)
    (forward : now.toNat ≤ next.toNat) (ahead : next.toNat ≤ race.projectedFinishTime.toNat) :
    OnTrack next race :=
  ⟨onTrack.votes, onTrack.updated.trans forward, onTrack.finish, ahead⟩

end Race

namespace Schedule

/-- Of the laps to start, the first that does not fit is lost with its owner. -/
theorem run_laps_unfit {now : UInt128} (owners : List Address) (db : Database)
    (present : ∀ a ∈ owners, db.producerVotes.find a ≠ none)
    (unfit : ∃ a ∈ owners, ∃ race, db.producerVotes.find a = some race ∧ ¬ race.Fits now) :
    ∃ a ∈ owners, ∃ race e db', db.producerVotes.find a = some race ∧ ¬ race.Fits now ∧
      (owners.forM fun owner =>
        onVotes (Index.change owner (Race.startNewRaceLap now))).run db = .error e db' ∧
      db'.producerVotes.find a = none ∧
      ∀ x, x ≠ a → (db'.producerVotes.find x).map (·.speed) =
        (db.producerVotes.find x).map (·.speed) := by
  induction owners generalizing db with
  | nil =>
    obtain ⟨a, member, -⟩ := unfit
    cases member
  | cons b rest ih =>
    obtain ⟨race, found⟩ := Option.ne_none_iff_exists'.mp (present b List.mem_cons_self)
    by_cases fits : race.Fits now
    · -- A lap that fits keeps the votes, so it is still the same laps that fit.
      have changed : (onVotes (Index.change b (Race.startNewRaceLap now))).run db =
          .ok () { db with producerVotes := db.producerVotes.modify b (race.lapAt now) } :=
        zoom_ok (Index.run_change found (Race.startNewRaceLap_eq fits))
      have places : ∀ x, (db.producerVotes.modify b (race.lapAt now)).find x =
          if b = x then some (race.lapAt now) else db.producerVotes.find x :=
        Index.find_modify found _
      have speeds : ∀ x, ((db.producerVotes.modify b (race.lapAt now)).find x).map (·.speed) =
          (db.producerVotes.find x).map (·.speed) := by
        intro x
        rw [places]
        split
        · next own => rw [← own, found, Option.map_some, Option.map_some, Race.speed_lapAt]
        · rfl
      obtain ⟨a, member, other, there, late⟩ := unfit
      have different : b ≠ a := by
        rintro rfl
        rw [found, Option.some.injEq] at there
        exact late (there ▸ fits)
      obtain ⟨a, member, other, e, db', there, late, ran, gone, kept⟩ := ih
        { db with producerVotes := db.producerVotes.modify b (race.lapAt now) }
        (fun x listed => by
          dsimp only
          rw [places]
          split
          · exact Option.some_ne_none _
          · exact present x (List.mem_cons_of_mem b listed))
        ⟨a, (List.mem_cons.mp member).resolve_left different.symm, other,
          by dsimp only; rw [places, if_neg different]; exact there, late⟩
      have other_than : b ≠ a := by
        rintro rfl
        dsimp only at there
        rw [places, if_pos rfl, Option.some.injEq] at there
        rw [← there, Race.fits_congr (Race.speed_lapAt now race)] at late
        exact late fits
      dsimp only at there
      rw [places, if_neg other_than] at there
      refine ⟨a, List.mem_cons_of_mem b member, other, e, db', there, late, ?_, gone,
        fun x apart => (kept x apart).trans (speeds x)⟩
      rw [forM_cons, bind_ok changed]
      exact ran
    · obtain ⟨e, failed⟩ := Race.startNewRaceLap_unfit fits
      have lost : (onVotes (Index.change b (Race.startNewRaceLap now))).run db =
          .error e { db with producerVotes := db.producerVotes.lose b } :=
        zoom_error (Index.run_change_error found failed)
      refine ⟨b, List.mem_cons_self, race, e,
        { db with producerVotes := db.producerVotes.lose b }, found, fits, ?_, ?_,
        fun x apart => ?_⟩
      · rw [forM_cons, bind_error lost]
      · exact (Index.find_lose _ _ _).trans (if_pos rfl)
      · dsimp only
        rw [Index.find_lose, if_neg (Ne.symm apart)]

/-- How the race stands after it was started over, apart from an owner that was lost on the way. -/
structure StartedOver (db after : Database) (lost : Option Address) : Prop where
  time : after.currentRaceTime.value = 0
  places : ∀ a, after.producerVotes.find a =
    if some a = lost then none else (db.producerVotes.find a).map (Race.lapAt 0)

/-- What advancing the race to the finish of somebody in it comes to. -/
inductive Advance (db after : Database) (runnerup : Address) (race : Race) : Prop
  /-- Everybody who completed a lap starts the next one. -/
  | laps
    (behind : (lapCompleters db.producerVotes runnerup).length < db.producerVotes.entries.size)
    (early : race.projectedFinishTime < maxUInt128)
    (fits : ∀ a ∈ lapCompleters db.producerVotes runnerup, ∃ other,
      db.producerVotes.find a = some other ∧ other.Fits race.projectedFinishTime)
    (time : after.currentRaceTime.value = race.projectedFinishTime)
    (places : ∀ a, after.producerVotes.find a =
      if a ∈ lapCompleters db.producerVotes runnerup then
        (db.producerVotes.find a).map (Race.lapAt race.projectedFinishTime)
      else db.producerVotes.find a)
  /-- Somebody cannot start the next lap, and everybody else starts over. -/
  | loses {lost : Address} {other : Race}
    (behind : (lapCompleters db.producerVotes runnerup).length < db.producerVotes.entries.size)
    (early : race.projectedFinishTime < maxUInt128)
    (completes : lost ∈ lapCompleters db.producerVotes runnerup)
    (found : db.producerVotes.find lost = some other)
    (unfit : ¬ other.Fits race.projectedFinishTime)
    (restarted : StartedOver db after (some lost))
  /-- All completed a lap, or the race time is used up, and everybody starts over. -/
  | restarts
    (done : ¬ ((lapCompleters db.producerVotes runnerup).length < db.producerVotes.entries.size ∧
      race.projectedFinishTime < maxUInt128))
    (restarted : StartedOver db after none)

/-- Advancing the race to the finish of somebody in it comes to one of the three. -/
theorem run_advanceRace_cases {db : Database} {runnerup : Address} {race : Race}
    (found : db.producerVotes.find runnerup = some race) :
    ∃ after, (advanceRace runnerup).run db = .ok () after ∧ Advance db after runnerup race := by
  have read : (onVotes (Index.get runnerup)).run db = .ok race db := zoom_ok (Index.run_get found)
  have present : ∀ a ∈ lapCompleters db.producerVotes runnerup, db.producerVotes.find a ≠ none :=
    fun a member => find_lapCompleters (Option.ne_none_iff_exists'.mpr ⟨race, found⟩) member
  by_cases goes : (lapCompleters db.producerVotes runnerup).length <
      db.producerVotes.entries.size ∧ race.projectedFinishTime < maxUInt128
  · by_cases unfit : ∃ a ∈ lapCompleters db.producerVotes runnerup, ∃ other,
        db.producerVotes.find a = some other ∧ ¬ other.Fits race.projectedFinishTime
    · obtain ⟨lost, member, other, e, mid, there, late, ran, gone, kept⟩ :=
        run_laps_unfit _ db present unfit
      obtain ⟨after, reset, time, places⟩ := run_resetProducerRace mid
      refine ⟨after, ?_, .loses goes.1 goes.2 member there late ⟨time, fun a => ?_⟩⟩
      · unfold advanceRace
        rw [bind_ok read, run_get_bind]
        dsimp only
        rw [if_pos goes]
        exact (tryCatch_error (bind_error ran)).trans reset
      · rw [places]
        by_cases own : a = lost
        · rw [own, gone, if_pos rfl, Option.map_none]
        · rw [if_neg (by simpa using own)]
          -- Whatever laps were started before the failure, starting over depends on votes alone.
          have speeds := kept a own
          cases was : db.producerVotes.find a with
          | none =>
            rw [was, Option.map_none, Option.map_eq_none_iff] at speeds
            rw [speeds, Option.map_none]
          | some before =>
            rw [was, Option.map_some, Option.map_eq_some_iff] at speeds
            obtain ⟨now, is, same⟩ := speeds
            rw [is, Option.map_some, Option.map_some, Race.lapAt_congr same]
    · have fits : ∀ a ∈ lapCompleters db.producerVotes runnerup, ∃ other,
          db.producerVotes.find a = some other ∧ other.Fits race.projectedFinishTime := by
        intro a member
        obtain ⟨other, there⟩ := Option.ne_none_iff_exists'.mp (present a member)
        exact ⟨other, there, not_not.mp fun late => unfit ⟨a, member, other, there, late⟩⟩
      obtain ⟨after, ran, time, places⟩ := run_advanceRace_lap found goes.1 goes.2 fits
      exact ⟨after, ran, .laps goes.1 goes.2 fits time places⟩
  · obtain ⟨after, reset, time, places⟩ := run_resetProducerRace db
    refine ⟨after, ?_, .restarts goes ⟨time, fun a => ?_⟩⟩
    · unfold advanceRace
      rw [bind_ok read, run_get_bind]
      dsimp only
      rw [if_neg goes]
      exact tryCatch_ok reset
    · rw [places, if_neg (Option.some_ne_none a)]

/-- A round leaves the race alone or advances it to the finish of its runner-up. -/
theorem calculateNextRound_cases {db after : Database} {round : List Address}
    (ran : calculateNextRound.run db = .ok round after) :
    (runnersup db = [] ∧ SameTrack db after) ∨
      ∃ runnerup race, runnersup db = [runnerup] ∧
        db.producerVotes.find runnerup = some race ∧ Advance db after runnerup race := by
  obtain nobody | ⟨runnerup, race, filled, only, found, same, advances⟩ :=
    calculateNextRound_advances ran
  · exact .inl nobody
  · have still : filled.producerVotes.find runnerup = some race := by rw [same.1, found]
    obtain ⟨end', runs, advance⟩ := run_advanceRace_cases still
    rw [runs] at advances
    cases advances
    refine .inr ⟨runnerup, race, only, found, ?_⟩
    cases advance with
    | laps behind early fits time places =>
      rw [same.1] at behind fits places
      exact .laps behind early fits time places
    | loses behind early completes there unfit restarted =>
      rw [same.1] at behind completes there
      exact .loses behind early completes there unfit
        ⟨restarted.time, fun a => by rw [restarted.places, same.1]⟩
    | restarts done restarted =>
      rw [same.1] at done
      exact .restarts done ⟨restarted.time, fun a => by rw [restarted.places, same.1]⟩

end Schedule

/-- A call that changes the race. -/
inductive RaceCall where
  | updateVotes (owner : Address) (deltaVotes : ShareType)
  | calculateNextRound
  | resetProducerRace

namespace RaceCall

/-- Make the call on a database. -/
def call : RaceCall → DbM Unit
  | updateVotes owner deltaVotes => do
    let db ← get
    onVotes (Index.change owner (Race.updateVotes deltaVotes db.currentRaceTime.value))
  | calculateNextRound => do
    let _ ← Schedule.calculateNextRound
  | resetProducerRace => Schedule.resetProducerRace

/-- Whether the call leaves nobody with a negative number of votes. -/
def votesStay (db : Database) : RaceCall → Bool
  | updateVotes owner deltaVotes =>
    (db.producerVotes.find owner).all fun race => 0 ≤ (race.speed + deltaVotes).toInt
  | calculateNextRound => true
  | resetProducerRace => true

end RaceCall

/-- A race that was just started, where nobody has a negative number of votes. -/
structure FreshRace (db : Database) : Prop where
  time : db.currentRaceTime.value = 0
  places : ∀ a race, db.producerVotes.find a = some race →
    race = race.lapAt 0 ∧ 0 ≤ race.speed.toInt

/-- Calls on the race one after another, none of which throws. In between, whatever is outside the
race may change. -/
inductive RaceCalls (start : Database) : List RaceCall → Database → Prop
  | none : RaceCalls start [] start
  | between {calls : List RaceCall} {db after : Database} (before : RaceCalls start calls db)
      (same : Schedule.SameTrack db after) : RaceCalls start calls after
  | next {calls : List RaceCall} {call : RaceCall} {db after : Database}
      (before : RaceCalls start calls db) (votes : call.votesStay db = true)
      (ran : call.call.run db = .ok () after) : RaceCalls start (calls ++ [call]) after

/-- Everybody in the race is up to date. -/
def AllOnTrack (db : Database) : Prop :=
  ∀ a race, db.producerVotes.find a = some race → race.OnTrack db.currentRaceTime.value

namespace AllOnTrack

variable {db after : Database}

theorem startedOver {lost : Option Address} (onTrack : AllOnTrack db)
    (restarted : Schedule.StartedOver db after lost) : AllOnTrack after := by
  intro a race found
  rw [restarted.places] at found
  split at found
  · cases found
  · obtain ⟨before, was, rfl⟩ := Option.map_eq_some_iff.mp found
    rw [restarted.time]
    exact Race.onTrack_lapAt (onTrack a before was).votes before.fits_zero

theorem advance {runnerup : Address} {race : Race} (onTrack : AllOnTrack db)
    (found : db.producerVotes.find runnerup = some race)
    (advance : Schedule.Advance db after runnerup race) : AllOnTrack after := by
  cases advance with
  | laps behind early fits time places =>
    intro a own there
    rw [places] at there
    rw [time]
    split at there
    · -- Whoever completed a lap starts the next one now.
      next member =>
      obtain ⟨other, was, fit⟩ := fits a member
      rw [was, Option.map_some, Option.some.injEq] at there
      rw [← there]
      exact Race.onTrack_lapAt (onTrack a other was).votes fit
    · -- Whoever did not finishes no sooner than the runner-up.
      next behind =>
      exact (onTrack a own there).later (onTrack runnerup race found).ahead
        (Schedule.finish_le_of_not_lapCompleters found there behind)
  | loses behind early completes there unfit restarted => exact onTrack.startedOver restarted
  | restarts done restarted => exact onTrack.startedOver restarted

theorem call {call : RaceCall} (onTrack : AllOnTrack db) (votes : call.votesStay db = true)
    (ran : call.call.run db = .ok () after) : AllOnTrack after := by
  -- Only a change of votes needs a condition; the others restart laps.
  cases call with
  | updateVotes owner deltaVotes =>
    rw [RaceCall.call, run_get_bind] at ran
    obtain ⟨ix, changed, rfl⟩ := zoom_eq_ok.mp ran
    cases found : db.producerVotes.find owner with
    | none =>
      rw [Index.run_change_none found] at changed
      cases changed
    | some race =>
      cases updated : race.updateVotes deltaVotes db.currentRaceTime.value with
      | error e =>
        rw [Index.run_change_error found updated] at changed
        cases changed
      | ok next =>
        rw [Index.run_change found updated] at changed
        cases changed
        intro a other there
        dsimp only at there ⊢
        rw [Index.find_modify found] at there
        split at there
        · cases there
          rw [RaceCall.votesStay, found, Option.all_some, decide_eq_true_eq] at votes
          exact (Race.onTrack_of_update votes updated).1
        · exact onTrack a other there
  | calculateNextRound =>
    obtain ⟨round, last, rounds, ends⟩ := bind_eq_ok.mp ran
    cases ends
    rcases Schedule.calculateNextRound_cases rounds with
      ⟨-, same⟩ | ⟨runnerup, race, -, found, advance⟩
    · intro a race found
      rw [same.1] at found
      rw [same.2]
      exact onTrack a race found
    · exact onTrack.advance found advance
  | resetProducerRace =>
    obtain ⟨last, reset, time, places⟩ := Schedule.run_resetProducerRace db
    have same : last = after := by
      have both := reset.symm.trans ran
      cases both
      rfl
    subst same
    have restarted : Schedule.StartedOver db last none :=
      ⟨time, fun a => by rw [places, if_neg (Option.some_ne_none a)]⟩
    exact onTrack.startedOver restarted

end AllOnTrack

variable {db : Database}

theorem FreshRace.allOnTrack (fresh : FreshRace db) : AllOnTrack db := by
  intro a race found
  obtain ⟨lap, votes⟩ := fresh.places a race found
  rw [fresh.time, lap]
  exact Race.onTrack_lapAt votes race.fits_zero

theorem RaceCalls.allOnTrack {start : Database} {calls : List RaceCall}
    (fresh : FreshRace start) (run : RaceCalls start calls db) : AllOnTrack db := by
  induction run with
  | none => exact fresh.allOnTrack
  | between before same ih =>
    intro a race found
    rw [same.1] at found
    rw [same.2]
    exact ih a race found
  | next before votes ran ih => exact ih.call votes ran

/-- Whatever calls are made on a race, race times and positions are computed without wrapping
around, and everybody is still on the track. -/
theorem race_never_wraps {start db : Database} {calls : List RaceCall} (fresh : FreshRace start)
    (run : RaceCalls start calls db) :
    (∀ a race, db.producerVotes.find a = some race →
      race.positionUpdateTime ≤ db.currentRaceTime.value ∧
      db.currentRaceTime.value ≤ race.projectedFinishTime ∧
      race.position.toNat + race.speed.toNat *
        (db.currentRaceTime.value.toNat - race.positionUpdateTime.toNat) ≤
          Config.producerRaceLapLength.toNat ∧
      (race.speed.toNat : ℤ) = race.speed.toInt ∧
      (db.currentRaceTime.value - race.positionUpdateTime).toNat =
        db.currentRaceTime.value.toNat - race.positionUpdateTime.toNat ∧
      (race.speed.signExtend 128 * (db.currentRaceTime.value - race.positionUpdateTime)).toNat =
        race.speed.toNat *
          (db.currentRaceTime.value.toNat - race.positionUpdateTime.toNat) ∧
      (race.positionAt db.currentRaceTime.value).toNat = race.position.toNat + race.speed.toNat *
        (db.currentRaceTime.value.toNat - race.positionUpdateTime.toNat)) ∧
    ∀ speed position now race, Race.update speed position now = .ok race →
      (Config.producerRaceLapLength - position).toNat =
        Config.producerRaceLapLength.toNat - position.toNat ∧
      (maxUInt128 - Race.timeToFinish speed position).toNat =
        maxUInt128.toNat - (Race.timeToFinish speed position).toNat ∧
      race.projectedFinishTime.toNat = now.toNat + (Race.timeToFinish speed position).toNat := by
  have onTrack := run.allOnTrack fresh
  refine ⟨fun a race found => ?_, fun speed position now race done => ?_⟩
  · have here := onTrack a race found
    exact ⟨BitVec.le_def.mpr here.updated, BitVec.le_def.mpr here.ahead, here.distance_le,
      Race.toNat_eq_toInt here.votes, here.toNat_elapsed, here.toNat_way, here.toNat_positionAt⟩
  · exact ⟨Race.toNat_remaining position, Race.toNat_remaining _, Race.finish_of_update done⟩

/-- Make a call, nothing if it throws or leaves somebody with a negative number of votes. -/
def RaceCall.make (db : Database) (call : RaceCall) : Option Database :=
  if call.votesStay db then
    match call.call.run db with
    | .ok _ after => some after
    | .error _ _ => none
  else none

theorem RaceCall.make_eq_some {after : Database} {call : RaceCall}
    (made : call.make db = some after) :
    call.votesStay db = true ∧ call.call.run db = .ok () after := by
  unfold make at made
  split at made
  · next votes =>
    cases called : call.call.run db with
    | error e last =>
      rw [called] at made
      cases made
    | ok u last =>
      rw [called] at made
      cases made
      exact ⟨votes, rfl⟩
  · cases made

theorem RaceCalls.foldlM {start after : Database} {calls made : List RaceCall}
    (before : RaceCalls start calls db) (ran : made.foldlM RaceCall.make db = some after) :
    RaceCalls start (calls ++ made) after := by
  induction made generalizing calls db with
  | nil =>
    cases ran
    rwa [List.append_nil]
  | cons call rest ih =>
    obtain ⟨mid, first, others⟩ := Option.bind_eq_some_iff.mp ran
    obtain ⟨votes, called⟩ := RaceCall.make_eq_some first
    have further := ih (before.next votes called) others
    rwa [List.append_assoc] at further

theorem freshRace_initializeChain {initialProducers : List Address} {c : Controller}
    (started : Controller.initializeChain initialProducers = some c) : FreshRace c.db := by
  have time : c.db.currentRaceTime.value = 0 :=
    (congrArg (fun db => db.currentRaceTime.value)
      (Controller.frame_initializeChain started)).trans rfl
  refine ⟨time, fun a race found => ?_⟩
  rw [(Controller.find_initializeChain started a).1] at found
  split at found
  · cases found
    exact ⟨rfl, by decide⟩
  · cases found

/-- Eighteen producers. -/
def eighteen : List Address := (List.range 18).map fun i => BitVec.ofNat 160 (i + 1)

/-- All but the last of the eighteen are given two votes. -/
def firstVotes : List RaceCall :=
  (List.range 17).map fun i => .updateVotes (BitVec.ofNat 160 (i + 1)) 2

/-- After a round of a race of eighteen producers, the runner-up has a lap ahead of it. -/
theorem race_never_wraps_first : ∃ start db race,
    Controller.initializeChain eighteen = some start ∧
    RaceCalls start.db (firstVotes ++ [.calculateNextRound]) db ∧
    db.producerVotes.find 1 = some race ∧
    race.positionUpdateTime ≤ db.currentRaceTime.value ∧
    db.currentRaceTime.value ≤ race.projectedFinishTime ∧
    db.currentRaceTime.value.toNat = 2 ^ 127 - 1 := by
  have evaluated : ((Controller.initializeChain eighteen).any fun start =>
      ((firstVotes ++ [RaceCall.calculateNextRound]).foldlM RaceCall.make start.db).any fun db =>
        (db.producerVotes.find 1).isSome ∧
          db.currentRaceTime.value.toNat = 2 ^ 127 - 1) = true := by
    decide +kernel
  obtain ⟨start, started, checked⟩ := (Option.any_eq_true _ _).mp evaluated
  obtain ⟨db, made, facts⟩ := (Option.any_eq_true _ _).mp checked
  obtain ⟨there, time⟩ := of_decide_eq_true facts
  obtain ⟨race, found⟩ := Option.isSome_iff_exists.mp there
  have run : RaceCalls start.db (firstVotes ++ [.calculateNextRound]) db :=
    RaceCalls.none.foldlM made
  obtain ⟨updated, ahead, -⟩ :=
    (race_never_wraps (freshRace_initializeChain started) run).1 1 race found
  exact ⟨start, db, race, started, run, found, updated, ahead, time⟩

namespace Schedule

variable {db : Database}

theorem StartedOver.speed {after : Database} {lost : Option Address}
    (restarted : StartedOver db after lost) {a : Address} (kept : some a ≠ lost) :
    after.speed a = db.speed a := by
  rw [Database.speed, restarted.places, if_neg kept, Option.map_map]
  rfl

theorem StartedOver.place {after : Database} {lost : Option Address}
    (restarted : StartedOver db after lost) {a : Address} {race : Race}
    (found : after.producerVotes.find a = some race) :
    race.position = 0 ∧ race.positionUpdateTime = 0 ∧
      race.projectedFinishTime.toNat = if 0 < race.speed.toInt then
        Config.producerRaceLapLength.toNat / race.speed.toNat else maxUInt128.toNat := by
  rw [restarted.places] at found
  split at found
  · cases found
  · obtain ⟨before, -, rfl⟩ := Option.map_eq_some_iff.mp found
    refine ⟨rfl, rfl, ?_⟩
    rw [Race.finish_lapAt before.fits_zero, Race.speed_lapAt]
    split
    · next moving =>
      rw [Race.toNat_timeToFinish moving]
      exact Nat.zero_add _
    · next still =>
      rw [Race.timeToFinish_of_not_pos still]
      exact Nat.zero_add _

/-- A round keeps everybody in the race with the same votes exactly when the laps fit, and where
they do not everybody who is left starts over. -/
theorem round_keeps_owners_iff {db after : Database} {round : List Address}
    (ran : calculateNextRound.run db = .ok round after) :
    (SameSpeeds db after ↔ LapsFit db) ∧
    (¬ LapsFit db → after.currentRaceTime.value = 0 ∧
      ∀ a race, after.producerVotes.find a = some race →
        race.position = 0 ∧ race.positionUpdateTime = 0 ∧
        race.projectedFinishTime.toNat = if 0 < race.speed.toInt then
          Config.producerRaceLapLength.toNat / race.speed.toNat else maxUInt128.toNat) := by
  rcases calculateNextRound_cases ran with ⟨nobody, same⟩ | ⟨runnerup, race, only, found, advance⟩
  · -- Without a runner-up the race stays as it is.
    have fit : LapsFit db := by
      intro runnerup race last
      rw [nobody] at last
      cases last
    exact ⟨⟨fun _ => fit, fun _ => SameRace.sameSpeeds same.1⟩, fun unfit => absurd fit unfit⟩
  · have last : (runnersup db).getLast? = some runnerup := by rw [only]; rfl
    cases advance with
    | laps behind early fits time places =>
      have fit : LapsFit db := by
        intro runnerup' race' last' found' _ _ a member speed there
        rw [last, Option.some.injEq] at last'
        subst last'
        rw [found, Option.some.injEq] at found'
        subst found'
        obtain ⟨other, was, fits⟩ := fits a member
        rw [Database.speed, was, Option.map_some, Option.some.injEq] at there
        rw [← there]
        exact fits
      have kept : SameSpeeds db after := by
        intro a
        rw [Database.speed, places]
        split
        · rw [Option.map_map]
          rfl
        · rfl
      exact ⟨⟨fun _ => fit, fun _ => kept⟩, fun unfit => absurd fit unfit⟩
    | @loses lost other behind early completes there unfit restarted =>
      have late : ¬ LapsFit db := by
        intro fit
        have fits := fit runnerup race last found behind early lost completes other.speed
          (by rw [Database.speed, there]; rfl)
        exact unfit fits
      refine ⟨⟨fun kept => ?_, fun fit => absurd fit late⟩, fun _ =>
        ⟨restarted.time, fun a race found => restarted.place found⟩⟩
      -- The one that is lost was there before.
      have gone := kept lost
      rw [Database.speed, restarted.places, if_pos rfl, Database.speed, there] at gone
      cases gone
    | restarts done restarted =>
      have fit : LapsFit db := by
        intro runnerup' race' last' found' behind early
        rw [last, Option.some.injEq] at last'
        subst last'
        rw [found, Option.some.injEq] at found'
        subst found'
        exact absurd ⟨behind, early⟩ done
      have kept : SameSpeeds db after := fun a => restarted.speed (Option.some_ne_none a)
      exact ⟨⟨fun _ => fit, fun _ => kept⟩, fun unfit => absurd fit unfit⟩

theorem lapsFit_of_raceGoesOn (goesOn : raceGoesOn db = true) : LapsFit db := by
  intro runnerup race last found _ _ a member speed there
  simp only [raceGoesOn, last, found, Bool.and_eq_true, List.all_eq_true,
    decide_eq_true_eq] at goesOn
  obtain ⟨other, was, same⟩ := Option.map_eq_some_iff.mp there
  have fits := goesOn.2 a member
  rw [was, Option.all_some, decide_eq_true_eq] at fits
  rw [← same]
  exact fits

/-- The first round of a race of eighteen producers loses nobody. -/
theorem round_keeps_owners_first : ∃ start db round after,
    Controller.initializeChain eighteen = some start ∧
    firstVotes.foldlM RaceCall.make start.db = some db ∧
    calculateNextRound.run db = .ok round after ∧ SameSpeeds db after := by
  have evaluated : ((Controller.initializeChain eighteen).any fun start =>
      (firstVotes.foldlM RaceCall.make start.db).any fun db =>
        raceGoesOn db && match calculateNextRound.run db with
        | .error _ _ => false
        | .ok _ _ => true) = true := by
    decide +kernel
  obtain ⟨start, started, checked⟩ := (Option.any_eq_true _ _).mp evaluated
  obtain ⟨db, made, facts⟩ := (Option.any_eq_true _ _).mp checked
  rw [Bool.and_eq_true] at facts
  cases ran : calculateNextRound.run db with
  | error e last =>
    rw [ran] at facts
    cases facts.2
  | ok round after =>
    exact ⟨start, db, round, after, started, made, ran,
      (round_keeps_owners_iff ran).1.mpr (lapsFit_of_raceGoesOn facts.1)⟩

end Schedule

namespace Controller

/-- A table of seventeen candidates with the given votes. -/
def candidates (votes : ℕ → U64) : Std.ExtTreeMap Address VoteInfo :=
  let info (i : ℕ) : VoteInfo :=
    { address := BitVec.ofNat 160 (i + 1)
      isCandidate := true
      receivedVote := votes i
      name := shortName
      url := shortUrl
      holdVotes := 0
      voteRecord := ∅ }
  .ofList ((List.range 17).map fun i => (BitVec.ofNat 160 (i + 1), info i))

/-- What the blocks see of the candidates: nobody, then candidates without votes, then sixteen of
them with three votes and one with two. -/
def candidatesAt : ℕ → Std.ExtTreeMap Address VoteInfo
  | 0 => ∅
  | 1 => candidates fun _ => 0
  | _ => candidates fun i => if i < 16 then 3 else 2

/-- Two rounds, the first by the only producer at the start, the second by the candidate whose
turn is first. -/
def raceBlocks (count : ℕ) : List Applied :=
  (List.range count).map fun i =>
    if i < 21 then
      .signed 100 (i + 1) (1513580324 + 63 * (i + 1) - if i = 0 then 0 else 3) (candidatesAt i)
    else .signed 9 (i + 1) (1513581645 + 63 * (i - 21)) (candidatesAt i)

/-- At the end of the second round the race time is nearly used up, and a candidate with three
votes is lost. -/
theorem overflow_loses_owner : ∃ c round after,
    replay [100] (raceBlocks 41) = some c ∧
    Schedule.calculateNextRound.run c.db = .ok round after ∧
    c.db.speed 1 = some 3 ∧ after.speed 1 = none := by
  have evaluated : ((replay [100] (raceBlocks 41)).any fun c =>
      match Schedule.calculateNextRound.run c.db with
      | .error _ _ => false
      | .ok _ after => decide (c.db.speed 1 = some (3 : ShareType) ∧ after.speed 1 = none)) =
        true := by
    decide +kernel
  obtain ⟨c, replayed, checked⟩ := (Option.any_eq_true _ _).mp evaluated
  cases ran : Schedule.calculateNextRound.run c.db with
  | error e last =>
    rw [ran] at checked
    cases checked
  | ok round after =>
    rw [ran] at checked
    obtain ⟨before, lost⟩ := of_decide_eq_true checked
    exact ⟨c, round, after, replayed, ran, before, lost⟩

end Controller

end Etiam
