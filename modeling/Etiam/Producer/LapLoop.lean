import Etiam.Library.UndoIndex
import Etiam.Library.Walk
import Etiam.Producer.Fairness

/-! The loop that restarts laps, step by step along the index by finish time that it reorders. -/

namespace Etiam

open Exec Database Walk

namespace Index

/-- The place of an object in the index by finish time. -/
def finishRank (a : Address) (object : Stored Race) : ℕ ×ₗ ℕ ×ₗ ℕ :=
  toLex (object.value.projectedFinishTime.toNat, toLex (object.id, a.toNat))

theorem finishRank_different (a b : Address) (p q : Stored Race)
    (same : finishRank a p = finishRank b q) : a = b := by
  have parts := Prod.mk.inj (toLex.injective same)
  have owners := Prod.mk.inj (toLex.injective parts.2)
  exact BitVec.eq_of_toNat_eq owners.2

/-- An index as a table of objects. -/
def table (ix : Index Address Race) (a : Address) : Option (Stored Race) := ix.entries[a]?

theorem find_eq_table (ix : Index Address Race) (a : Address) :
    ix.find a = (ix.table a).map (·.value) := rfl

variable {ix : Index Address Race} {a : Address}

theorem sound_of_toList (below : ∀ entry ∈ ix.entries.toList, entry.2.id < ix.nextId)
    (different : (ix.entries.toList.map (·.2.id)).Nodup) : ix.Sound where
  below a object found :=
    below (a, object) (Std.ExtTreeMap.mem_toList_iff_getElem?_eq_some.mpr found)
  unique a b object other found again same := by
    have first := Std.ExtTreeMap.mem_toList_iff_getElem?_eq_some.mpr found
    have second := Std.ExtTreeMap.mem_toList_iff_getElem?_eq_some.mpr again
    exact congrArg Prod.fst (List.inj_on_of_nodup_map different first second same)

/-- With different ids, the order by finish time and id is the order of the places. -/
theorem before_iff_ranked (sound : ix.Sound) {b : Address} (apart : a ≠ b) :
    Before finishRank ix.table a b ↔ Ranked finishesBefore ix a b := by
  constructor
  · rintro ⟨p, q, foundA, foundB, lt⟩
    refine ⟨p, q, foundA, foundB, ?_⟩
    rw [finishRank, finishRank, Prod.Lex.toLex_lt_toLex, Prod.Lex.toLex_lt_toLex] at lt
    rcases lt with sooner | ⟨same, older | ⟨tie, -⟩⟩
    · exact .inl (BitVec.lt_def.mpr sooner)
    · exact .inr ⟨BitVec.eq_of_toNat_eq same, older.le⟩
    · exact .inr ⟨BitVec.eq_of_toNat_eq same, tie.le⟩
  · rintro ⟨p, q, foundA, foundB, le⟩
    refine ⟨p, q, foundA, foundB, ?_⟩
    rw [finishRank, finishRank, Prod.Lex.toLex_lt_toLex, Prod.Lex.toLex_lt_toLex]
    rcases le with sooner | ⟨same, older⟩
    · exact .inl (BitVec.lt_def.mp sooner)
    · -- Two owners with one id would be one.
      have differ : p.id ≠ q.id := fun same => apart (sound.unique a b p q foundA foundB same)
      exact .inr ⟨congrArg BitVec.toNat same, .inl (lt_of_le_of_ne older differ)⟩

theorem nodup_byProjectedRaceFinishTime (ix : Index Address Race) :
    ix.byProjectedRaceFinishTime.Nodup := by
  simpa [byProjectedRaceFinishTime] using ix.nodup_owners (fun _ => true) finishesBefore

theorem pairwise_before (sound : ix.Sound) :
    ix.byProjectedRaceFinishTime.Pairwise (Before finishRank ix.table) := by
  have ranked : ix.byProjectedRaceFinishTime.Pairwise (Ranked finishesBefore ix) :=
    pairwise_ranked finishesBefore ix
  refine (ranked.and ix.nodup_byProjectedRaceFinishTime).imp ?_
  rintro a b ⟨before, apart⟩
  exact (before_iff_ranked sound apart).mpr before

theorem length_byProjectedRaceFinishTime (ix : Index Address Race) :
    ix.byProjectedRaceFinishTime.length = ix.entries.size := by
  rw [byProjectedRaceFinishTime, List.length_map, List.length_insertionSort,
    Std.ExtTreeMap.length_toList]

theorem mem_byProjectedRaceFinishTime_iff_table :
    a ∈ ix.byProjectedRaceFinishTime ↔ ix.table a ≠ none := by
  rw [mem_byProjectedRaceFinishTime, find, table]
  simp

/-- Move an iterator of the index by finish time to the next owner, nothing at the end. -/
def increment (ix : Index Address Race) (itr : Address) : Option Address :=
  (ix.byProjectedRaceFinishTime.dropWhile (· ≠ itr))[1]?

theorem exists_split (present : ix.table a ≠ none) :
    ∃ before after, ix.byProjectedRaceFinishTime = before ++ a :: after ∧
      ∀ b ∈ before, (b ≠ a : Bool) = true := by
  have listed := mem_byProjectedRaceFinishTime_iff_table.mpr present
  have different := ix.nodup_byProjectedRaceFinishTime
  generalize ix.byProjectedRaceFinishTime = owners at listed different
  obtain ⟨before, after, rfl⟩ := List.append_of_mem listed
  refine ⟨before, after, rfl, fun b member => ?_⟩
  have apart := (List.nodup_append.mp different).2.2 b member a List.mem_cons_self
  simpa using apart

theorem increment_next (sound : ix.Sound) {b : Address} (before : Before finishRank ix.table a b) :
    ∃ c, ix.increment a = some c ∧ Next finishRank ix.table a c := by
  obtain ⟨earlier, later, split, others⟩ := exists_split before.present_left
  have dropped : ix.byProjectedRaceFinishTime.dropWhile (· ≠ a) = a :: later := by
    rw [split, List.dropWhile_append_of_pos others, List.dropWhile_cons_of_neg (by simp)]
  have pairs := pairwise_before sound
  rw [split, List.pairwise_append, List.pairwise_cons] at pairs
  obtain ⟨-, ⟨toLater, laterPairs⟩, fromEarlier⟩ := pairs
  -- Whoever comes after is listed later.
  have after : ∀ x, Before finishRank ix.table a x → x ∈ later := by
    intro x behind
    have listed := mem_byProjectedRaceFinishTime_iff_table.mpr behind.present_right
    rw [split, List.mem_append, List.mem_cons] at listed
    rcases listed with old | own | new
    · exact absurd (behind.trans (fromEarlier x old a List.mem_cons_self)) Before.irrefl
    · rw [own] at behind
      exact absurd behind Before.irrefl
    · exact new
  cases later with
  | nil => cases after b before
  | cons c rest =>
    refine ⟨c, by rw [increment, dropped]; rfl, toLater c List.mem_cons_self, ?_⟩
    intro x behind sooner
    rcases List.mem_cons.mp (after x behind) with own | further
    · rw [own] at sooner
      exact Before.irrefl sooner
    · exact Before.irrefl (sooner.trans ((List.pairwise_cons.mp laterPairs).1 x further))

theorem table_modify {old : Stored Race} (found : ix.table a = some old) (race : Race) :
    (ix.modify a race).table = Walk.set ix.table a { old with value := race } := by
  funext b
  unfold table at found ⊢
  unfold modify Walk.set
  simp only [found, Std.ExtTreeMap.getElem?_insert, Std.compare_eq_iff_eq]
  by_cases same : a = b
  · rw [if_pos same, if_pos same.symm]
  · rw [if_neg same, if_neg (Ne.symm same)]

end Index

namespace Schedule

/-- What restarting the lap of an object makes of it, nothing where the lap does not fit. -/
def restart (newRaceTime : UInt128) (object : Stored Race) : Option (Stored Race) :=
  if object.value.Fits newRaceTime then
    some { object with value := object.value.lapAt newRaceTime }
  else none

/-- Restart laps from an iterator on until it reaches the end of the range, where the iterator has
moved on before the object behind it is changed. Nothing is returned while the loop is still
running. -/
def restartLaps (newRaceTime : UInt128) (stop : Option Address) :
    ℕ → Option Address → Database → Option (EStateM.Result Failure Database Unit)
  | 0, _, _ => none
  | fuel + 1, itr, db =>
    if itr = stop then some (.ok () db)
    else
      match itr with
      | none => some (.error .undefinedBehaviour db)
      | some completer =>
        match (onVotes (Index.change completer (Race.startNewRaceLap newRaceTime))).run db with
        | .ok _ after =>
          restartLaps newRaceTime stop fuel (db.producerVotes.increment completer) after
        | .error e after => some (.error e after)

/-- Advance the race with the loop over the index by finish time, or start it over when it cannot
go on. -/
def advanceRaceLoop (fuel : ℕ) (runnerup : Address) (newRaceTime : UInt128) (db : Database) :
    Option (EStateM.Result Failure Database Unit) :=
  if (lapCompleters db.producerVotes runnerup).length < db.producerVotes.entries.size ∧
      newRaceTime < maxUInt128 then
    match restartLaps newRaceTime (db.producerVotes.increment runnerup) fuel
        db.producerVotes.byProjectedRaceFinishTime.head? db with
    | some (.ok _ after) => some ((setRaceTime newRaceTime).run after)
    | some (.error _ after) => some (resetProducerRace.run after)
    | none => none
  else some (resetProducerRace.run db)

/-- The loop goes along with a walk over the objects, and returns at its end. -/
theorem restartLaps_walks {newRaceTime : UInt128} {last first : Address}
    {start after : Address → Option (Stored Race)}
    (walks : Walks Index.finishRank (restart newRaceTime) last first start after)
    {db : Database} (sound : db.producerVotes.Sound) (same : db.producerVotes.table = start) :
    ∃ bound votes, votes.table = after ∧ ∀ fuel, bound ≤ fuel →
      restartLaps newRaceTime (some last) fuel (some first) db =
        some (.ok () { db with producerVotes := votes }) := by
  induction walks generalizing db with
  | done table =>
    refine ⟨1, db.producerVotes, same, fun fuel enough => ?_⟩
    obtain ⟨fuel, rfl⟩ := Nat.exists_eq_succ_of_ne_zero (by omega : fuel ≠ 0)
    rw [restartLaps, if_pos rfl]
  | @step a b v w table after going found next visited rest ih =>
    subst same
    -- The visit is what the change of the object does.
    unfold restart at visited
    split at visited
    · next fits =>
      cases visited
      have present : db.producerVotes.find a = some v.value := by
        rw [Index.find_eq_table, found, Option.map_some]
      have changed : (onVotes (Index.change a (Race.startNewRaceLap newRaceTime))).run db =
          .ok () { db with producerVotes :=
            db.producerVotes.modify a (v.value.lapAt newRaceTime) } :=
        zoom_ok (Index.run_change present (Race.startNewRaceLap_eq fits))
      obtain ⟨bound, votes, ends, returns⟩ := @ih
        { db with producerVotes := db.producerVotes.modify a (v.value.lapAt newRaceTime) }
        (sound.modify a _) (Index.table_modify found _)
      obtain ⟨c, incremented, following⟩ := Index.increment_next sound next.before
      have onward : c = b := following.unique Index.finishRank_different next
      refine ⟨bound + 1, votes, ends, fun fuel enough => ?_⟩
      obtain ⟨fuel, rfl⟩ := Nat.exists_eq_succ_of_ne_zero (by omega : fuel ≠ 0)
      rw [restartLaps, if_neg (by simpa using going)]
      simp only [changed, incremented, onward]
      exact returns fuel (by omega)
    · cases visited

section Completers

variable {ix : Index Address Race} {runnerup last a : Address}

theorem mem_lapCompleters_iff (sound : ix.Sound) (present : ix.table runnerup ≠ none) :
    a ∈ lapCompleters ix runnerup ↔ Index.Ranked Index.finishesBefore ix a runnerup := by
  obtain ⟨object, found⟩ := Option.ne_none_iff_exists'.mp present
  have own : Index.Ranked Index.finishesBefore ix runnerup runnerup :=
    ⟨object, object, found, found, .inr ⟨rfl, le_rfl⟩⟩
  by_cases same : a = runnerup
  · rw [same]
    exact ⟨fun _ => own, fun _ => List.mem_append_right _ (List.mem_singleton_self _)⟩
  obtain ⟨earlier, later, split, others⟩ := Index.exists_split present
  have pairs := Index.pairwise_before sound
  have completers : lapCompleters ix runnerup = earlier ++ [runnerup] := by
    rw [lapCompleters, split, List.takeWhile_append_of_pos others,
      List.takeWhile_cons_of_neg (by simp), List.append_nil]
  rw [split, List.pairwise_append, List.pairwise_cons] at pairs
  obtain ⟨-, ⟨toLater, -⟩, fromEarlier⟩ := pairs
  rw [completers, List.mem_append, List.mem_singleton, or_iff_left same,
    ← Index.before_iff_ranked sound same]
  constructor
  · exact fun member => fromEarlier a member runnerup List.mem_cons_self
  · intro before
    have listed := Index.mem_byProjectedRaceFinishTime_iff_table.mpr before.present_left
    rw [split, List.mem_append, List.mem_cons] at listed
    rcases listed with member | own | further
    · exact member
    · exact absurd own same
    · exact absurd (before.trans (toLater a further)) Before.irrefl

theorem before_iff_completes (sound : ix.Sound)
    (next : Next Index.finishRank ix.table runnerup last) :
    Before Index.finishRank ix.table a last ↔
      Index.Ranked Index.finishesBefore ix a runnerup := by
  obtain ⟨object, found⟩ := Option.ne_none_iff_exists'.mp next.before.present_left
  by_cases same : a = runnerup
  · rw [same]
    exact ⟨fun _ => ⟨object, object, found, found, .inr ⟨rfl, le_rfl⟩⟩, fun _ => next.before⟩
  rw [← Index.before_iff_ranked sound same]
  constructor
  · intro before
    refine (before_total Index.finishRank_different same before.present_left
      next.before.present_left).resolve_right fun after => ?_
    exact next.between a after before
  · exact fun before => before.trans next.before

theorem exists_after_runnerup (sound : ix.Sound) (present : ix.table runnerup ≠ none)
    (behind : (lapCompleters ix runnerup).length < ix.entries.size) :
    ∃ b, Before Index.finishRank ix.table runnerup b := by
  by_contra nobody
  -- Then everybody in the race completes a lap.
  have all : ix.byProjectedRaceFinishTime ⊆ lapCompleters ix runnerup := by
    intro b listed
    have there := Index.mem_byProjectedRaceFinishTime_iff_table.mp listed
    by_cases same : b = runnerup
    · rw [same]
      exact List.mem_append_right _ (List.mem_singleton_self _)
    · rw [mem_lapCompleters_iff sound present, ← Index.before_iff_ranked sound same]
      exact (before_total Index.finishRank_different same there present).resolve_right
        fun after => nobody ⟨b, after⟩
  have count := (ix.nodup_byProjectedRaceFinishTime.subperm all).length_le
  rw [Index.length_byProjectedRaceFinishTime] at count
  omega

end Completers

theorem exists_begin {ix : Index Address Race} (sound : ix.Sound) {b : Address}
    (present : ix.table b ≠ none) :
    ∃ first, ix.byProjectedRaceFinishTime.head? = some first ∧ ix.table first ≠ none ∧
      ∀ c, ¬ Before Index.finishRank ix.table c first := by
  have listed := Index.mem_byProjectedRaceFinishTime_iff_table.mpr present
  have pairs := Index.pairwise_before sound
  have members := fun c => @Index.mem_byProjectedRaceFinishTime_iff_table ix c
  generalize ix.byProjectedRaceFinishTime = owners at listed pairs members
  cases owners with
  | nil => cases listed
  | cons first rest =>
    refine ⟨first, rfl, (members first).mp List.mem_cons_self, fun c before => ?_⟩
    rcases List.mem_cons.mp ((members c).mpr before.present_left) with own | later
    · rw [own] at before
      exact Before.irrefl before
    · exact Before.irrefl (before.trans ((List.pairwise_cons.mp pairs).1 c later))

/-- The loop over the laps returns, and has then restarted at once exactly whoever finished no later
than the runner-up, as the race is advanced without walking the index. -/
theorem lap_loop_restarts_completers {db : Database} {runnerup : Address} {race : Race}
    (sound : db.producerVotes.Sound)
    (found : db.producerVotes.find runnerup = some race)
    (behind : (lapCompleters db.producerVotes runnerup).length < db.producerVotes.entries.size)
    (early : race.projectedFinishTime < maxUInt128)
    (fits : ∀ a other, Index.Ranked Index.finishesBefore db.producerVotes a runnerup →
      db.producerVotes.find a = some other → other.Fits race.projectedFinishTime) :
    ∃ bound after, (∀ fuel, bound ≤ fuel →
        advanceRaceLoop fuel runnerup race.projectedFinishTime db = some (.ok () after)) ∧
      after.currentRaceTime.value = race.projectedFinishTime ∧
      (∀ a, Index.Ranked Index.finishesBefore db.producerVotes a runnerup →
        after.producerVotes.find a =
          (db.producerVotes.find a).map (Race.lapAt race.projectedFinishTime)) ∧
      (∀ a, ¬ Index.Ranked Index.finishesBefore db.producerVotes a runnerup →
        after.producerVotes.find a = db.producerVotes.find a) ∧
      ∃ model, (advanceRace runnerup).run db = .ok () model ∧
        model.currentRaceTime.value = after.currentRaceTime.value ∧
        ∀ a, model.producerVotes.find a = after.producerVotes.find a := by
  have there : db.producerVotes.table runnerup ≠ none := by
    intro absent
    rw [Index.find_eq_table, absent] at found
    cases found
  obtain ⟨b, after⟩ := exists_after_runnerup sound there behind
  obtain ⟨last, incremented, next⟩ := Index.increment_next sound after
  obtain ⟨first, begins, present, nothing⟩ := exists_begin sound there
  -- Restarting a lap twice is restarting it once, since the race time is the same.
  have twice : ∀ c v, Before Index.finishRank db.producerVotes.table c last →
      db.producerVotes.table c = some v → ∃ w, restart race.projectedFinishTime v = some w ∧
        restart race.projectedFinishTime w = some w := by
    intro c v before object
    have value : db.producerVotes.find c = some v.value := by
      rw [Index.find_eq_table, object, Option.map_some]
    have fit := fits c v.value ((before_iff_completes sound next).mp before) value
    exact ⟨_, if_pos fit, if_pos fit⟩
  have ahead : first = last ∨ Before Index.finishRank db.producerVotes.table first last := by
    by_cases arrived : first = last
    · exact .inl arrived
    · exact .inr ((before_total Index.finishRank_different arrived present
        next.before.present_right).resolve_right (nothing last))
  have finite : ∀ c, db.producerVotes.table c ≠ none →
      c ∈ db.producerVotes.byProjectedRaceFinishTime.toFinset := fun c object =>
    List.mem_toFinset.mpr (Index.mem_byProjectedRaceFinishTime_iff_table.mpr object)
  obtain ⟨ends, walks, visited⟩ :=
    exists_walks Index.finishRank_different twice finite nothing ahead
  obtain ⟨bound, votes, table, returns⟩ := restartLaps_walks walks sound rfl
  have completed : ∀ a, Index.Ranked Index.finishesBefore db.producerVotes a runnerup →
      votes.find a = (db.producerVotes.find a).map (Race.lapAt race.projectedFinishTime) := by
    intro a completes
    have before := (before_iff_completes sound next).mpr completes
    obtain ⟨v, object⟩ := Option.ne_none_iff_exists'.mp before.present_left
    obtain ⟨w, once, -⟩ := twice a v before object
    have fit : v.value.Fits race.projectedFinishTime := by
      by_contra unfit
      rw [restart, if_neg unfit] at once
      cases once
    rw [Index.find_eq_table, Index.find_eq_table, table, (visited a).1 before, object,
      Option.bind_some, restart, if_pos fit]
    rfl
  have untouched : ∀ a, ¬ Index.Ranked Index.finishesBefore db.producerVotes a runnerup →
      votes.find a = db.producerVotes.find a := by
    intro a later
    rw [Index.find_eq_table, Index.find_eq_table, table,
      (visited a).2 fun before => later ((before_iff_completes sound next).mp before)]
  obtain ⟨model, ran, time, places⟩ := run_advanceRace_lap found behind early (by
    intro a member
    obtain ⟨other, object⟩ := Option.ne_none_iff_exists'.mp
      (find_lapCompleters (Option.ne_none_iff_exists'.mpr ⟨race, found⟩) member)
    exact ⟨other, object, fits a other ((mem_lapCompleters_iff sound there).mp member) object⟩)
  refine ⟨bound, { db with
    producerVotes := votes
    currentRaceTime := db.currentRaceTime.modify fun _ => race.projectedFinishTime },
    fun fuel enough => ?_, rfl, completed, untouched, model, ran, time, fun a => ?_⟩
  · rw [advanceRaceLoop, if_pos ⟨behind, early⟩, incremented, begins, returns fuel enough]
    rfl
  · rw [places]
    split
    · next member => exact (completed a ((mem_lapCompleters_iff sound there).mp member)).symm
    · next later =>
      exact (untouched a fun ranked => later ((mem_lapCompleters_iff sound there).mpr ranked)).symm

/-- The loop returns for the runner-up of a small race. -/
theorem lap_loop_restarts_completers_small : ∃ db race,
    resetProducerRace.run smallRace = .ok () db ∧ runnersup db = [17] ∧
    db.producerVotes.find 17 = some race ∧ ∃ bound after, (∀ fuel, bound ≤ fuel →
        advanceRaceLoop fuel 17 race.projectedFinishTime db = some (.ok () after)) ∧
      after.currentRaceTime.value = race.projectedFinishTime := by
  obtain ⟨db, reset, -⟩ := run_resetProducerRace smallRace
  have evaluated : ((final (resetProducerRace.run smallRace)).producerVotes.find 17).any
      (fun race => runnersup (final (resetProducerRace.run smallRace)) = [17] ∧
        (lapCompleters (final (resetProducerRace.run smallRace)).producerVotes 17).length <
          (final (resetProducerRace.run smallRace)).producerVotes.entries.size ∧
        race.projectedFinishTime < maxUInt128 ∧
        (∀ entry ∈ (final (resetProducerRace.run smallRace)).producerVotes.entries.toList,
          entry.2.value.Fits race.projectedFinishTime) ∧
        (∀ entry ∈ (final (resetProducerRace.run smallRace)).producerVotes.entries.toList,
          entry.2.id < (final (resetProducerRace.run smallRace)).producerVotes.nextId) ∧
        ((final (resetProducerRace.run smallRace)).producerVotes.entries.toList.map
          (·.2.id)).Nodup) = true := by
    decide +kernel
  rw [reset] at evaluated
  change (db.producerVotes.find 17).any _ = true at evaluated
  obtain ⟨race, found, facts⟩ := (Option.any_eq_true _ _).mp evaluated
  obtain ⟨chosen, behind, early, fits, below, different⟩ := of_decide_eq_true facts
  have sound : db.producerVotes.Sound := Index.sound_of_toList below different
  obtain ⟨bound, after, returns, time, -⟩ :=
    lap_loop_restarts_completers sound found behind early (by
    intro a other ranked object
    obtain ⟨v, at_, rfl⟩ := Option.map_eq_some_iff.mp object
    exact fits (a, v) (Std.ExtTreeMap.mem_toList_iff_getElem?_eq_some.mpr at_))
  exact ⟨db, race, reset, chosen, found, bound, after, returns, time⟩

end Schedule

end Etiam
