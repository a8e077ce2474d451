import Etiam.Library.Stride
import Etiam.Producer.Round

/-! Fairness of the race: runners-up are chosen in proportion to their votes. -/

namespace Etiam

open Exec Database

namespace Schedule

/-- Whether the next round advances the race without starting it over. -/
def raceGoesOn (db : Database) : Bool :=
  match (runnersup db).getLast? with
  | none => true
  | some runnerup =>
    match db.producerVotes.find runnerup with
    | none => true
    | some race =>
      (lapCompleters db.producerVotes runnerup).length < db.producerVotes.entries.size &&
        race.projectedFinishTime < maxUInt128 &&
        (lapCompleters db.producerVotes runnerup).all fun a =>
          (db.producerVotes.find a).all fun other => other.Fits race.projectedFinishTime

/-- A round that advances the race to the finish of its runner-up. -/
structure Lap (db after : Database) (runnerup : Address) (race : Race) : Prop where
  chosen : runnersup db = [runnerup]
  found : db.producerVotes.find runnerup = some race
  time : after.currentRaceTime.value = race.projectedFinishTime
  fits : ∀ a ∈ lapCompleters db.producerVotes runnerup, ∃ other,
    db.producerVotes.find a = some other ∧ other.Fits race.projectedFinishTime
  places : ∀ a, after.producerVotes.find a =
    if a ∈ lapCompleters db.producerVotes runnerup then
      (db.producerVotes.find a).map (Race.lapAt race.projectedFinishTime)
    else db.producerVotes.find a

variable {db after : Database} {runnerup a : Address} {race : Race} {rounds : List Database}

theorem find_lapCompleters (present : db.producerVotes.find runnerup ≠ none)
    (member : a ∈ lapCompleters db.producerVotes runnerup) : db.producerVotes.find a ≠ none := by
  rcases List.mem_append.mp member with before | last
  · exact Index.mem_byProjectedRaceFinishTime.mp ((List.takeWhile_sublist _).mem before)
  · rw [List.mem_singleton.mp last]
    exact present

theorem exists_byProjectedRaceFinishTime (present : db.producerVotes.find runnerup ≠ none) :
    ∃ later, db.producerVotes.byProjectedRaceFinishTime =
      db.producerVotes.byProjectedRaceFinishTime.takeWhile (· ≠ runnerup) ++ runnerup :: later := by
  have listed := Index.mem_byProjectedRaceFinishTime.mpr present
  generalize db.producerVotes.byProjectedRaceFinishTime = owners at listed
  induction owners with
  | nil => cases listed
  | cons a rest ih =>
    by_cases own : a = runnerup
    · exact ⟨rest, by simp [own]⟩
    · obtain ⟨later, split⟩ := ih ((List.mem_cons.mp listed).resolve_left (Ne.symm own))
      refine ⟨later, ?_⟩
      rw [List.takeWhile_cons_of_pos (by simpa using own), List.cons_append, ← split]

/-- Whoever completes a lap with the runner-up has a place by votes. -/
theorem voted_of_lapCompleters
    (chosen : runnersup db = [runnerup]) (member : a ∈ lapCompleters db.producerVotes runnerup)
    (other : a ≠ runnerup) : a ∈ voted db := by
  have own : runnerup ∈ runnersup db := by simp [chosen]
  have before : a ∈ db.producerVotes.byProjectedRaceFinishTime.takeWhile (· ≠ runnerup) := by
    rcases List.mem_append.mp member with before | last
    · exact before
    · exact absurd (List.mem_singleton.mp last) other
  obtain ⟨later, split⟩ := exists_byProjectedRaceFinishTime ((runnersup_spec db).2.1 _ own).1
  -- Without a place by votes it would have been chosen instead.
  by_contra without
  unfold runnersup at chosen
  split at chosen
  · rw [split, List.filter_append] at chosen
    have listed : a ∈ (db.producerVotes.byProjectedRaceFinishTime.takeWhile
        (· ≠ runnerup)).filter (· ∉ voted db) :=
      List.mem_filter.mpr ⟨before, by simpa using without⟩
    cases kept : (db.producerVotes.byProjectedRaceFinishTime.takeWhile
        (· ≠ runnerup)).filter (· ∉ voted db) with
    | nil =>
      rw [kept] at listed
      cases listed
    | cons first rest =>
      rw [kept, Config.dposRunnerupProducersPerRound, List.cons_append, List.take_succ_cons,
        List.take_zero, List.cons.injEq] at chosen
      have inside : first ∈ db.producerVotes.byProjectedRaceFinishTime.takeWhile (· ≠ runnerup) :=
        (List.mem_filter.mp (kept ▸ List.mem_cons_self)).1
      simpa [chosen.1] using List.mem_takeWhile_imp inside
  · cases chosen

theorem finish_le_of_not_lapCompleters {other : Race}
    (found : db.producerVotes.find runnerup = some race)
    (present : db.producerVotes.find a = some other)
    (behind : a ∉ lapCompleters db.producerVotes runnerup) :
    race.projectedFinishTime.toNat ≤ other.projectedFinishTime.toNat := by
  obtain ⟨later, split⟩ := exists_byProjectedRaceFinishTime
    (Option.ne_none_iff_exists'.mpr ⟨race, found⟩)
  have listed := Index.mem_byProjectedRaceFinishTime.mpr
    (Option.ne_none_iff_exists'.mpr ⟨other, present⟩)
  rw [split, List.append_cons, List.mem_append] at listed
  have after := listed.resolve_left behind
  have pairs : db.producerVotes.byProjectedRaceFinishTime.Pairwise
      (Index.Ranked Index.finishesBefore db.producerVotes) :=
    Index.pairwise_ranked Index.finishesBefore db.producerVotes
  rw [split, List.pairwise_append] at pairs
  obtain ⟨p, q, first, second, before⟩ := (List.pairwise_cons.mp pairs.2.1).1 a after
  have sameP : p.value = race := by simpa [Index.find, first] using found
  have sameQ : q.value = other := by simpa [Index.find, second] using present
  unfold Index.finishesBefore at before
  dsimp only at before
  rw [sameP, sameQ, BitVec.lt_def] at before
  rcases before with sooner | ⟨same, -⟩
  · exact sooner.le
  · rw [same]

theorem run_advanceRace_lap (found : db.producerVotes.find runnerup = some race)
    (behind : (lapCompleters db.producerVotes runnerup).length < db.producerVotes.entries.size)
    (early : race.projectedFinishTime < maxUInt128)
    (fits : ∀ a ∈ lapCompleters db.producerVotes runnerup, ∃ other,
      db.producerVotes.find a = some other ∧ other.Fits race.projectedFinishTime) :
    ∃ after, (advanceRace runnerup).run db = .ok () after ∧
      after.currentRaceTime.value = race.projectedFinishTime ∧
      ∀ a, after.producerVotes.find a = if a ∈ lapCompleters db.producerVotes runnerup then
        (db.producerVotes.find a).map (Race.lapAt race.projectedFinishTime)
      else db.producerVotes.find a := by
  have read : (onVotes (Index.get runnerup)).run db = .ok race db := zoom_ok (Index.run_get found)
  obtain ⟨last, ran, -, places⟩ := run_laps _ db fits
  refine ⟨{ last with currentRaceTime := last.currentRaceTime.modify fun _ =>
    race.projectedFinishTime }, ?_, rfl, places⟩
  unfold advanceRace
  rw [bind_ok read, run_get_bind]
  dsimp only
  rw [if_pos ⟨behind, early⟩]
  exact tryCatch_ok (bind_ok ran)

theorem runnersup_eq_singleton
    (last : (runnersup db).getLast? = some runnerup) : runnersup db = [runnerup] := by
  have short := (runnersup_spec db).2.2
  rw [Config.dposRunnerupProducersPerRound] at short
  cases all : runnersup db with
  | nil => simp [all] at last
  | cons a rest =>
    cases rest with
    | nil => simpa [all] using last
    | cons b rest => simp [all] at short

theorem calculateNextRound_advances {round : List Address}
    (ran : calculateNextRound.run db = .ok round after) :
    (runnersup db = [] ∧ SameTrack db after) ∨
      ∃ runnerup race filled, runnersup db = [runnerup] ∧
        db.producerVotes.find runnerup = some race ∧ SameTrack db filled ∧
        (advanceRace runnerup).run filled = .ok () after := by
  unfold calculateNextRound at ran
  rw [run_get_bind] at ran
  dsimp only at ran
  split at ran
  · cases ran
  · obtain ⟨chosen, filled, fills, rest⟩ := bind_eq_ok.mp ran
    have same : SameTrack db filled := (writeFrame_sameTrack.notes.fillRound _).of_ok fills
    cases last : (runnersup db).getLast? with
    | none =>
      rw [last] at rest
      cases rest
      exact .inl ⟨List.getLast?_eq_none_iff.mp last, same⟩
    | some runnerup =>
      rw [last] at rest
      obtain ⟨_, advanced, advances, ends⟩ := bind_eq_ok.mp rest
      cases ends
      have only : runnersup db = [runnerup] := runnersup_eq_singleton last
      obtain ⟨race, found⟩ := Option.ne_none_iff_exists'.mp
        ((runnersup_spec db).2.1 runnerup (by simp [only])).1
      exact .inr ⟨runnerup, race, filled, only, found, same, advances⟩

theorem calculateNextRound_lap {round : List Address}
    (goesOn : raceGoesOn db = true) (ran : calculateNextRound.run db = .ok round after) :
    (runnersup db = [] ∧ SameTrack db after) ∨ ∃ runnerup race, Lap db after runnerup race := by
  obtain nobody | ⟨runnerup, race, filled, only, found, same, advances⟩ :=
    calculateNextRound_advances ran
  · exact .inl nobody
  · have last : (runnersup db).getLast? = some runnerup := by rw [only, List.getLast?_singleton]
    simp only [raceGoesOn, last, found, Bool.and_eq_true, List.all_eq_true,
      decide_eq_true_eq] at goesOn
    have fits : ∀ a ∈ lapCompleters db.producerVotes runnerup, ∃ other,
        db.producerVotes.find a = some other ∧ other.Fits race.projectedFinishTime := by
      intro a member
      obtain ⟨other, present⟩ := Option.ne_none_iff_exists'.mp
        (find_lapCompleters (Option.ne_none_iff_exists'.mpr ⟨race, found⟩) member)
      have fit := goesOn.2 a member
      rw [present, Option.all_some, decide_eq_true_eq] at fit
      exact ⟨other, present, fit⟩
    -- The places were filled first, which left the race as it was.
    rw [← same.1] at found goesOn fits
    obtain ⟨end', runs, time, places⟩ := run_advanceRace_lap found goesOn.1.1 goesOn.1.2 fits
    rw [runs] at advances
    cases advances
    rw [same.1] at found fits places
    exact .inr ⟨runnerup, race, only, found, time, fits, places⟩

/-- The time that somebody with votes needs for a lap. -/
def lapTime (speed : ShareType) : ℕ := Config.producerRaceLapLength.toNat / speed.toNat

/-- The rounds in which somebody was chosen as the runner-up. -/
def wins (rounds : List Database) (a : Address) : ℕ :=
  rounds.countP fun db => a ∈ runnersup db

/-- Somebody is never among those with the most votes. -/
def NeverTop (rounds : List Database) (a : Address) : Prop :=
  ∀ db ∈ rounds, a ∉ db.producerVotes.byVotes.take Config.dposVotedProducersPerRound

/-- The rounds since the race was started over, without other changes to the race. -/
inductive RaceRun : List Database → Database → Prop
  | start {db after : Database} (reset : resetProducerRace.run db = .ok () after) :
      RaceRun [] after
  | next {rounds : List Database} {last db after : Database} {round : List Address}
      (run : RaceRun rounds last) (same : SameTrack last db) (goesOn : raceGoesOn db = true)
      (ran : calculateNextRound.run db = .ok round after) : RaceRun (rounds ++ [db]) after

/-- Everybody in the race keeps level with the race time. -/
structure Paced (rounds : List Database) (db : Database) : Prop where
  onTime : ∀ a race, db.producerVotes.find a = some race →
    db.currentRaceTime.value.toNat ≤ race.projectedFinishTime.toNat
  finish : ∀ a race, db.producerVotes.find a = some race → 0 < race.speed.toInt →
    NeverTop rounds a → race.projectedFinishTime.toNat = (wins rounds a + 1) * lapTime race.speed
  clock : ∀ a race, db.producerVotes.find a = some race → 0 < race.speed.toInt →
    NeverTop rounds a → wins rounds a * lapTime race.speed ≤ db.currentRaceTime.value.toNat

theorem Paced.start (reset : resetProducerRace.run db = .ok () after) :
    Paced [] after := by
  obtain ⟨last, ran, time, places⟩ := run_resetProducerRace db
  rw [ran] at reset
  cases reset
  refine ⟨fun a race found => ?_, fun a race found moving _ => ?_, fun a race found _ _ => ?_⟩
  · rw [time]
    exact Nat.zero_le _
  · rw [places, Option.map_eq_some_iff] at found
    obtain ⟨old, -, rfl⟩ := found
    rw [Race.speed_lapAt] at moving ⊢
    rw [Race.finish_lapAt old.fits_zero, Race.toNat_timeToFinish moving]
    simp [wins, lapTime]
  · simp [wins]

theorem Paced.congr {last : Database} (paced : Paced rounds last)
    (same : SameTrack last db) : Paced rounds db := by
  obtain ⟨votes, time⟩ := same
  constructor
  · rw [votes, time]
    exact paced.onTime
  · rw [votes]
    exact paced.finish
  · rw [votes, time]
    exact paced.clock

theorem wins_append (rounds : List Database) (db : Database) (a : Address) :
    wins (rounds ++ [db]) a = wins rounds a + if a ∈ runnersup db then 1 else 0 := by
  simp [wins, List.countP_append, List.countP_singleton]

theorem Paced.lap (paced : Paced rounds db) (lap : Lap db after runnerup race) :
    Paced (rounds ++ [db]) after := by
  -- The race time only moves forward, to the finish of the runner-up.
  have forward : db.currentRaceTime.value.toNat ≤ after.currentRaceTime.value.toNat := by
    rw [lap.time]
    exact paced.onTime runnerup race lap.found
  have win : ∀ a, wins (rounds ++ [db]) a = wins rounds a + if a = runnerup then 1 else 0 := by
    intro a
    rw [wins_append, lap.chosen]
    simp only [List.mem_singleton]
  have earlier : ∀ {a}, NeverTop (rounds ++ [db]) a → NeverTop rounds a := fun never old member =>
    never old (List.mem_append_left _ member)
  have voteless : ∀ {a}, NeverTop (rounds ++ [db]) a → a ∉ voted db := by
    intro a never member
    unfold voted at member
    split at member
    · exact never db (by simp) member
    · cases member
  -- Among those without a place by votes, only the runner-up starts a lap.
  have others : ∀ {a}, a ≠ runnerup → NeverTop (rounds ++ [db]) a →
      a ∉ lapCompleters db.producerVotes runnerup := fun other never member =>
    voteless never (voted_of_lapCompleters lap.chosen member other)
  refine ⟨fun a own found => ?_, fun a own found moving never => ?_,
    fun a own found moving never => ?_⟩
  · rw [lap.places] at found
    rw [lap.time]
    split at found
    · next member =>
      obtain ⟨other, present, fits⟩ := lap.fits a member
      rw [present, Option.map_some, Option.some.injEq] at found
      rw [← found, Race.finish_lapAt fits]
      omega
    · next behind => exact finish_le_of_not_lapCompleters lap.found found behind
  · rw [lap.places] at found
    rw [win]
    by_cases own' : a = runnerup
    · subst own'
      have member : a ∈ lapCompleters db.producerVotes a := by simp [lapCompleters]
      obtain ⟨other, present, fits⟩ := lap.fits a member
      rw [lap.found, Option.some.injEq] at present
      subst present
      rw [if_pos member, lap.found, Option.map_some, Option.some.injEq] at found
      subst found
      rw [Race.speed_lapAt] at moving ⊢
      have before := paced.finish a race lap.found moving (earlier never)
      rw [Race.finish_lapAt fits, before, Race.toNat_timeToFinish moving, if_pos rfl,
        Nat.succ_mul (_ + 1)]
      rfl
    · rw [if_neg (others own' never)] at found
      rw [if_neg own', Nat.add_zero]
      exact paced.finish a own found moving (earlier never)
  · rw [lap.places] at found
    rw [win]
    by_cases own' : a = runnerup
    · subst own'
      have member : a ∈ lapCompleters db.producerVotes a := by simp [lapCompleters]
      rw [if_pos member, lap.found, Option.map_some, Option.some.injEq] at found
      subst found
      rw [if_pos rfl, lap.time]
      exact (paced.finish a race lap.found moving (earlier never)).ge
    · rw [if_neg (others own' never)] at found
      rw [if_neg own', Nat.add_zero]
      exact (paced.clock a own found moving (earlier never)).trans forward

theorem RaceRun.paced (run : RaceRun rounds db) :
    Paced rounds db := by
  induction run with
  | start reset => exact Paced.start reset
  | @next rounds last db after round run same goesOn ran ih =>
    have level := ih.congr same
    rcases calculateNextRound_lap goesOn ran with ⟨nobody, still⟩ | ⟨runnerup, race, lap⟩
    · -- A round without a runner-up is a win for nobody.
      have count : ∀ a, wins (rounds ++ [db]) a = wins rounds a := by
        intro a
        rw [wins_append, nobody]
        simp
      have after := level.congr still
      refine ⟨after.onTime, fun a race found moving never => ?_,
        fun a race found moving never => ?_⟩
      · rw [count]
        exact after.finish a race found moving fun old member =>
          never old (List.mem_append_left _ member)
      · rw [count]
        exact after.clock a race found moving fun old member =>
          never old (List.mem_append_left _ member)
    · exact level.lap lap

theorem toNat_of_moving {v : ShareType} (moving : 0 < v.toInt) :
    0 < v.toNat ∧ v.toNat ≤ 2 ^ 63 - 1 ∧ (v.toNat : ℤ) = v.toInt := by
  have bits := BitVec.toInt_eq_toNat_cond v
  have bound := v.isLt
  split at bits <;> omega

theorem fine_of_moving {v w : ShareType} (moving : 0 < v.toInt) (moving' : 0 < w.toInt) :
    4 * (v.toNat * w.toNat) ≤ Config.producerRaceLapLength.toNat := by
  calc 4 * (v.toNat * w.toNat) ≤ 4 * ((2 ^ 63 - 1) * (2 ^ 63 - 1)) :=
        Nat.mul_le_mul_left _
          (Nat.mul_le_mul (toNat_of_moving moving).2.1 (toNat_of_moving moving').2.1)
    _ ≤ Config.producerRaceLapLength.toNat := by decide

section Pair

variable {rounds : List Database} {db : Database} {a b : Address} {first second : Race}

/-- The last win of the one is behind the race time, the next win of the other is not. -/
theorem Paced.level (paced : Paced rounds db) (foundA : db.producerVotes.find a = some first)
    (foundB : db.producerVotes.find b = some second) (movingA : 0 < first.speed.toInt)
    (movingB : 0 < second.speed.toInt) (neverA : NeverTop rounds a) (neverB : NeverTop rounds b) :
    wins rounds a * lapTime first.speed ≤ (wins rounds b + 1) * lapTime second.speed := by
  rw [← paced.finish b second foundB movingB neverB]
  exact (paced.clock a first foundA movingA neverA).trans (paced.onTime b second foundB)

/-- Nobody without a place by votes is chosen more often than its votes earn, up to two laps. -/
theorem Paced.wins_le (paced : Paced rounds db) (foundA : db.producerVotes.find a = some first)
    (foundB : db.producerVotes.find b = some second) (movingA : 0 < first.speed.toInt)
    (movingB : 0 < second.speed.toInt) (neverA : NeverTop rounds a) (neverB : NeverTop rounds b) :
    (wins rounds a : ℤ) * second.speed.toInt ≤ wins rounds b * first.speed.toInt +
      2 * max first.speed.toInt second.speed.toInt := by
  have level := paced.level foundA foundB movingA movingB neverA neverB
  have within : (wins rounds b + 1) * lapTime second.speed ≤
      Config.producerRaceLapLength.toNat := by
    rw [← paced.finish b second foundB movingB neverB]
    exact Nat.le_of_lt_succ second.projectedFinishTime.isLt
  obtain ⟨positiveA, -, bitsA⟩ := toNat_of_moving movingA
  obtain ⟨positiveB, -, bitsB⟩ := toNat_of_moving movingB
  have share := Stride.turns_le_share positiveA positiveB (fine_of_moving movingA movingB) level
    within
  rw [← bitsA, ← bitsB]
  exact_mod_cast share

theorem Paced.wins_mono (paced : Paced rounds db) (foundA : db.producerVotes.find a = some first)
    (foundB : db.producerVotes.find b = some second) (movingA : 0 < first.speed.toInt)
    (movingB : 0 < second.speed.toInt) (neverA : NeverTop rounds a) (neverB : NeverTop rounds b)
    (more : second.speed.toInt < first.speed.toInt) : wins rounds b ≤ wins rounds a := by
  have level := paced.level foundB foundA movingB movingA neverB neverA
  obtain ⟨positiveA, -, bitsA⟩ := toNat_of_moving movingA
  obtain ⟨positiveB, -, bitsB⟩ := toNat_of_moving movingB
  have shorter : lapTime first.speed < lapTime second.speed :=
    Stride.stride_lt positiveB (by omega) (fine_of_moving movingA movingB)
  -- A win more in longer laps would have come after the next win in shorter ones.
  by_contra fewer
  have ahead : (wins rounds a + 1) * lapTime second.speed ≤ wins rounds b * lapTime second.speed :=
    Nat.mul_le_mul_right _ (by omega)
  have behind : (wins rounds a + 1) * lapTime first.speed <
      (wins rounds a + 1) * lapTime second.speed :=
    Nat.mul_lt_mul_of_pos_left shorter (Nat.succ_pos _)
  omega

/-- Runners-up are chosen in proportion to their votes. -/
theorem runnersup_in_proportion (run : RaceRun rounds db)
    (foundA : db.producerVotes.find a = some first)
    (foundB : db.producerVotes.find b = some second) (movingA : 0 < first.speed.toInt)
    (movingB : 0 < second.speed.toInt) (neverA : NeverTop rounds a) (neverB : NeverTop rounds b) :
    |(wins rounds a : ℤ) * second.speed.toInt - wins rounds b * first.speed.toInt| ≤
        3 * max first.speed.toInt second.speed.toInt ∧
      (second.speed.toInt < first.speed.toInt → wins rounds b ≤ wins rounds a) := by
  have paced := run.paced
  have notMore := paced.wins_le foundA foundB movingA movingB neverA neverB
  have notLess := paced.wins_le foundB foundA movingB movingA neverB neverA
  rw [max_comm] at notLess
  refine ⟨abs_le.mpr ⟨?_, ?_⟩, paced.wins_mono foundA foundB movingA movingB neverA neverB⟩
  · have := le_max_left first.speed.toInt second.speed.toInt
    omega
  · have := le_max_left first.speed.toInt second.speed.toInt
    omega

end Pair

/-- Play some rounds, as long as the race goes on. -/
def playRounds : ℕ → List Database → Database → Option (List Database × Database)
  | 0, rounds, db => some (rounds, db)
  | count + 1, rounds, db =>
    if raceGoesOn db then
      match calculateNextRound.run db with
      | .ok _ after => playRounds count (rounds ++ [db]) after
      | .error _ _ => none
    else none

theorem RaceRun.play {count : ℕ} {rounds' : List Database} {db' : Database}
    (run : RaceRun rounds db) (played : playRounds count rounds db = some (rounds', db')) :
    RaceRun rounds' db' := by
  induction count generalizing rounds db with
  | zero =>
    cases played
    exact run
  | succ count ih =>
    unfold playRounds at played
    split at played
    · next goesOn =>
      cases ran : calculateNextRound.run db with
      | error e after =>
        rw [ran] at played
        cases played
      | ok round after =>
        rw [ran] at played
        exact ih (run.next ⟨rfl, rfl⟩ goesOn ran) played
    · cases played

/-- One of sixteen producers with many votes, or one with four votes, or one with two. -/
def smallRacer (i : ℕ) : ProducerVotesObject :=
  (BitVec.ofNat 160 (i + 1),
    ⟨i, { speed := if i < 16 then 1000 else if i = 16 then 4 else 2 }⟩)

/-- A race of eighteen producers. -/
def smallRace : Database :=
  { Controller.genesisDatabase [] with
    producerVotes := ⟨.ofList ((List.range 18).map smallRacer), 18, 0, []⟩ }

/-- After three rounds of a small race, four votes have won twice and two votes once. -/
theorem runnersup_in_proportion_small : ∃ rounds db, RaceRun rounds db ∧
    wins rounds 17 = 2 ∧ wins rounds 18 = 1 ∧
    |(wins rounds 17 : ℤ) * 2 - wins rounds 18 * 4| ≤ 3 * max 4 2 ∧
    wins rounds 18 ≤ wins rounds 17 := by
  obtain ⟨start, reset, -⟩ := run_resetProducerRace smallRace
  have evaluated : ((playRounds 3 [] (final (resetProducerRace.run smallRace))).any fun played =>
      wins played.1 17 = 2 ∧ wins played.1 18 = 1 ∧
      played.1.all (17 ∉ ·.producerVotes.byVotes.take Config.dposVotedProducersPerRound) ∧
      played.1.all (18 ∉ ·.producerVotes.byVotes.take Config.dposVotedProducersPerRound) ∧
      (played.2.producerVotes.find 17).any (·.speed = 4) ∧
      (played.2.producerVotes.find 18).any (·.speed = 2)) = true := by decide +kernel
  obtain ⟨⟨rounds, db⟩, played, facts⟩ := (Option.any_eq_true _ _).mp evaluated
  rw [reset] at played
  have run : RaceRun rounds db := (RaceRun.start reset).play played
  simp only [decide_eq_true_eq, Option.any_eq_true, List.all_eq_true] at facts
  obtain ⟨wins17, wins18, never17, never18, ⟨first, found17, four⟩, second, found18, two⟩ := facts
  have fair := runnersup_in_proportion run found17 found18 (by rw [four]; decide)
    (by rw [two]; decide) never17 never18
  rw [four, two] at fair
  exact ⟨rounds, db, run, wins17, wins18, fair.1, fair.2 (by decide)⟩

end Schedule

end Etiam
