import Etiam.Producer.Registry

/-! The next round: who is chosen, in which order of merit, and in how many places. -/

namespace Etiam

open Exec Database
open Controller (Applied)

namespace Random

theorem swap_perm {xs : List Address} {i j : ℕ} (first : i < xs.length) (second : j < xs.length) :
    (swap xs i j).Perm xs := by
  unfold swap
  rw [List.getD_eq_getElem _ _ second, List.getD_eq_getElem _ _ first]
  exact List.set_set_perm first second

theorem shuffle_perm (count : ℕ) (rng : Random) {xs : List Address} (fits : count ≤ xs.length) :
    (shuffle count rng xs).Perm xs := by
  -- Each turn swaps two entries that are there.
  induction count generalizing rng xs with
  | zero => exact List.Perm.refl xs
  | succ count ih =>
    rcases count with _ | count
    · exact List.Perm.refl xs
    · have swapped : (swap xs (rng.next.1.toNat % (count + 2)) (count + 1)).Perm xs :=
        swap_perm ((Nat.mod_lt _ (by omega)).trans_le fits) (by omega)
      have rest : count + 1 ≤ (swap xs (rng.next.1.toNat % (count + 2)) (count + 1)).length := by
        rw [swapped.length_eq]
        omega
      exact (ih rng.next.2 rest).trans swapped

end Random

namespace Index

theorem mem_byVotes {ix : Index Address Race} {a : Address} :
    a ∈ ix.byVotes ↔ ix.find a ≠ none := by
  unfold byVotes find
  simp only [List.mem_map, List.mem_insertionSort, Prod.exists, exists_and_right, exists_eq_right,
    mem_toList_iff, ne_eq, Option.map_eq_none_iff]
  exact Option.ne_none_iff_exists'.symm

theorem mem_byProjectedRaceFinishTime {ix : Index Address Race} {a : Address} :
    a ∈ ix.byProjectedRaceFinishTime ↔ ix.find a ≠ none := by
  unfold byProjectedRaceFinishTime find
  simp only [List.mem_map, List.mem_insertionSort, Prod.exists, exists_and_right, exists_eq_right,
    mem_toList_iff, ne_eq, Option.map_eq_none_iff]
  exact Option.ne_none_iff_exists'.symm

/-- One comes before another by votes. -/
instance : IsTrans ProducerVotesObject votesBefore where
  trans p q r first second := by
    unfold votesBefore at *
    rcases first with more | ⟨same, later⟩ <;> rcases second with more' | ⟨same', later'⟩
    · exact .inl (by omega)
    · exact .inl (by rw [← same']; exact more)
    · exact .inl (by rw [same]; exact more')
    · exact .inr ⟨same.trans same', by omega⟩

instance : Std.Total votesBefore where
  total p q := by
    unfold votesBefore
    rcases lt_trichotomy p.2.value.speed.toInt q.2.value.speed.toInt with less | same | more
    · exact .inr (.inl less)
    · -- Equal votes are the same bits, and the ids decide.
      have bits := BitVec.eq_of_toInt_eq same
      rcases le_total p.2.id q.2.id with first | second
      · exact .inr (.inr ⟨bits.symm, first⟩)
      · exact .inl (.inr ⟨bits, second⟩)
    · exact .inl (.inl more)

instance : IsTrans ProducerVotesObject finishesBefore where
  trans p q r first second := by
    unfold finishesBefore at *
    simp only [BitVec.lt_def] at *
    rcases first with sooner | ⟨same, earlier⟩ <;> rcases second with sooner' | ⟨same', earlier'⟩
    · exact .inl (by omega)
    · exact .inl (by rw [← same']; exact sooner)
    · exact .inl (by rw [same]; exact sooner')
    · exact .inr ⟨same.trans same', by omega⟩

instance : Std.Total finishesBefore where
  total p q := by
    unfold finishesBefore
    simp only [BitVec.lt_def]
    rcases lt_trichotomy p.2.value.projectedFinishTime.toNat
      q.2.value.projectedFinishTime.toNat with sooner | same | later
    · exact .inl (.inl sooner)
    · have bits := BitVec.eq_of_toNat_eq same
      rcases le_total p.2.id q.2.id with first | second
      · exact .inl (.inr ⟨bits, first⟩)
      · exact .inr (.inr ⟨bits.symm, second⟩)
    · exact .inr (.inl later)

/-- The objects of two owners stand in a relation. -/
def Ranked (r : ProducerVotesObject → ProducerVotesObject → Prop) (ix : Index Address Race)
    (a b : Address) : Prop :=
  ∃ p q, ix.entries[a]? = some p ∧ ix.entries[b]? = some q ∧ r (a, p) (b, q)

theorem pairwise_ranked (r : ProducerVotesObject → ProducerVotesObject → Prop) [DecidableRel r]
    [Std.Total r] [IsTrans ProducerVotesObject r] (ix : Index Address Race) :
    ((ix.entries.toList.insertionSort r).map (·.1)).Pairwise (Ranked r ix) := by
  rw [List.pairwise_map]
  refine (List.pairwise_insertionSort r ix.entries.toList).imp_of_mem fun first second before => ?_
  rw [List.mem_insertionSort] at first second
  exact ⟨_, _, mem_toList_iff.mp first, mem_toList_iff.mp second, before⟩

end Index

namespace Schedule

/-- What is true of the workers that were taken from the queue of a database. -/
structure Taken (db : Database) (places : ℕ) (processed workers : List Address) : Prop where
  few : workers.length ≤ places
  different : workers.Nodup
  new : ∀ a ∈ workers, a ∉ processed
  queued : ∀ a ∈ workers, db.producers.Queued a
  voteless : ∀ a ∈ workers, db.producerVotes.find a = none

theorem Taken.nil (db : Database) (places : ℕ) (processed : List Address) :
    Taken db places processed [] :=
  ⟨Nat.zero_le _, List.nodup_nil, by simp, by simp, by simp⟩

variable {db : Database} {block : Applied}

theorem run_leavePow {owner : Address} (queued : db.producers.Queued owner) :
    ∃ db', (leavePow owner).run db = .ok () db' ∧ db'.producerVotes = db.producerVotes ∧
      db'.dynamic.headBlockNumber = db.dynamic.headBlockNumber ∧
      ∀ a, db'.producers.Queued a → db.producers.Queued a := by
  obtain ⟨producer, found, place⟩ := queued
  have changed : (modifyProducer owner fun p => { p with powWorker := 0 }).run db =
      .ok () { db with producers := db.producers.modify owner { producer with powWorker := 0 } } :=
    zoom_ok (Index.run_change found rfl)
  refine ⟨_, bind_ok changed, rfl, rfl, fun a still => ?_⟩
  have left := (Index.queued_modify found { producer with powWorker := 0 } a).mp still
  split at left
  · exact absurd rfl left
  · exact left

theorem takePow_taken (fuel places : ℕ) (processed upcoming : List Address) (db : Database)
    (queued : ∀ a ∈ upcoming, db.producers.Queued a) :
    ∃ workers db', (takePow fuel places processed upcoming).run db = .ok workers db' ∧
      Taken db places processed workers := by
  -- The induction follows the loop, whose queue shrinks as workers leave it.
  induction fuel generalizing places processed upcoming db with
  | zero => exact ⟨[], db, rfl, Taken.nil db places processed⟩
  | succ fuel ih =>
    rcases places with _ | places
    · exact ⟨[], db, rfl, Taken.nil db 0 processed⟩
    rcases upcoming with _ | ⟨owner, rest⟩
    · exact ⟨[], db, rfl, Taken.nil db (places + 1) processed⟩
    unfold takePow
    by_cases seen : owner ∈ processed
    · rw [if_pos seen]
      exact ih (places + 1) processed rest db fun a member =>
        queued a (List.mem_cons_of_mem owner member)
    · rw [if_neg seen]
      have own := queued owner List.mem_cons_self
      obtain ⟨left, ran, votes, -, fewer⟩ := run_leavePow own
      rw [bind_ok ran, run_get_bind]
      by_cases voteless : left.producerVotes.find owner = none
      · rw [if_pos (by simp [voteless])]
        obtain ⟨workers, last, took, taken⟩ := ih places (owner :: processed) left.producers.byPow
          left fun a member => Index.mem_byPow.mp member
        refine ⟨owner :: workers, last, (bind_ok took).trans rfl, ?_⟩
        rw [votes] at voteless
        refine ⟨Nat.succ_le_succ taken.few, ?_, ?_, ?_, ?_⟩
        · exact taken.different.cons fun member => taken.new owner member List.mem_cons_self
        · intro a member
          rcases List.mem_cons.mp member with rfl | member
          · exact seen
          · exact fun old => taken.new a member (List.mem_cons_of_mem owner old)
        · intro a member
          rcases List.mem_cons.mp member with rfl | member
          · exact own
          · exact fewer a (taken.queued a member)
        · intro a member
          rcases List.mem_cons.mp member with rfl | member
          · exact voteless
          · rw [← votes]
            exact taken.voteless a member
      · rw [if_neg (by simpa using voteless)]
        obtain ⟨workers, last, took, taken⟩ := ih (places + 1) processed left.producers.byPow
          left fun a member => Index.mem_byPow.mp member
        exact ⟨workers, last, took, taken.few, taken.different, taken.new,
          fun a member => fewer a (taken.queued a member),
          fun a member => votes ▸ taken.voteless a member⟩

/-- With a place to give, the first of the queue is taken unless it has votes or a place already. -/
theorem takePow_ne_nil {fuel places : ℕ} {processed rest workers : List Address} {owner : Address}
    {db' : Database} (queued : ∀ a ∈ owner :: rest, db.producers.Queued a)
    (new : owner ∉ processed) (voteless : db.producerVotes.find owner = none)
    (ran : (takePow (fuel + 1) (places + 1) processed (owner :: rest)).run db = .ok workers db') :
    workers ≠ [] := by
  obtain ⟨left, leaves, votes, -, -⟩ := run_leavePow (queued owner List.mem_cons_self)
  unfold takePow at ran
  rw [if_neg new, bind_ok leaves, run_get_bind, if_pos (by simp [votes, voteless])] at ran
  obtain ⟨others, mid, -, made⟩ := bind_eq_ok.mp ran
  cases made
  exact List.cons_ne_nil _ _

theorem run_dropSurplusPow (db : Database) :
    ∃ db', dropSurplusPow.run db = .ok () db' ∧ db'.producerVotes = db.producerVotes ∧
      db'.dynamic.headBlockNumber = db.dynamic.headBlockNumber ∧
      ∀ a, db'.producers.Queued a → db.producers.Queued a := by
  unfold dropSurplusPow
  rw [run_get_bind]
  split
  · cases first : db.producers.byPow.head? with
    | none => exact ⟨db, rfl, rfl, rfl, fun _ => id⟩
    | some owner => exact run_leavePow (Index.mem_byPow.mp (List.mem_of_mem_head? first))
  · exact ⟨db, rfl, rfl, rfl, fun _ => id⟩

/-- Dropping from a counted queue of more than a round leaves somebody in it. -/
theorem byPow_ne_nil (genuine : Genuine block) {db' : Database}
    (registry : Registry db) (working : db.dynamic.numPowWitnesses ≠ 0)
    (ran : dropSurplusPow.run db = .ok () db') : db'.producers.byPow ≠ [] := by
  have moved : Moves block db db' := Moves.dropSurplusPow.of_ok ran
  have counted := (registry.moves genuine moved).counted
  -- The counter of the queue is not brought down to zero.
  have still : db'.dynamic.numPowWitnesses ≠ 0 := by
    unfold dropSurplusPow at ran
    rw [run_get_bind] at ran
    split at ran
    · next many =>
      cases first : db.producers.byPow.head? with
      | none =>
        rw [first] at ran
        cases ran
        exact working
      | some owner =>
        obtain ⟨producer, found, place⟩ := Index.mem_byPow.mp (List.mem_of_mem_head? first)
        rw [first] at ran
        have changed : (modifyProducer owner fun p => { p with powWorker := 0 }).run db =
            .ok () { db with
              producers := db.producers.modify owner { producer with powWorker := 0 } } :=
          zoom_ok (Index.run_change found rfl)
        dsimp only at ran
        rw [leavePow, bind_ok changed] at ran
        cases ran
        change db.dynamic.numPowWitnesses - 1 ≠ 0
        rw [Config.totalProducersPerRound] at many
        bv_omega
    · cases ran
      exact working
  intro empty
  rw [empty] at counted
  exact still counted

theorem run_laps {now : UInt128} (owners : List Address) (db : Database)
    (fits : ∀ a ∈ owners, ∃ race, db.producerVotes.find a = some race ∧ race.Fits now) :
    ∃ db', (owners.forM fun owner =>
        onVotes (Index.change owner (Race.startNewRaceLap now))).run db = .ok () db' ∧
      db'.currentRaceTime = db.currentRaceTime ∧
      ∀ x, db'.producerVotes.find x = if x ∈ owners then
        (db.producerVotes.find x).map (Race.lapAt now) else db.producerVotes.find x := by
  induction owners generalizing db with
  | nil => exact ⟨db, rfl, rfl, fun x => by simp⟩
  | cons a rest ih =>
    obtain ⟨race, found, fit⟩ := fits a List.mem_cons_self
    have changed : (onVotes (Index.change a (Race.startNewRaceLap now))).run db =
        .ok () { db with producerVotes := db.producerVotes.modify a (race.lapAt now) } :=
      zoom_ok (Index.run_change found (Race.startNewRaceLap_eq fit))
    have places : ∀ x, (db.producerVotes.modify a (race.lapAt now)).find x =
        if a = x then some (race.lapAt now) else db.producerVotes.find x :=
      Index.find_modify found _
    rw [forM_cons, bind_ok changed]
    -- A lap that was just started can be started again, and is the same lap.
    obtain ⟨last, ran, time, found'⟩ := ih
      { db with producerVotes := db.producerVotes.modify a (race.lapAt now) } (by
        intro b member
        dsimp only
        rw [places]
        split
        · exact ⟨_, rfl, fit⟩
        · exact fits b (List.mem_cons_of_mem a member))
    refine ⟨last, ran, time, fun x => ?_⟩
    rw [found']
    dsimp only
    rw [places]
    by_cases own : a = x
    · subst own
      simp [found, Race.lapAt]
    · simp [own, Ne.symm own]

theorem run_resetProducerRace (db : Database) : ∃ db', resetProducerRace.run db = .ok () db' ∧
    db'.currentRaceTime.value = 0 ∧
    ∀ x, db'.producerVotes.find x = (db.producerVotes.find x).map (Race.lapAt 0) := by
  have fits : ∀ a ∈ db.producerVotes.byVotes,
      ∃ race, db.producerVotes.find a = some race ∧ race.Fits 0 := by
    intro a member
    obtain ⟨race, found⟩ := Option.ne_none_iff_exists'.mp (Index.mem_byVotes.mp member)
    exact ⟨race, found, race.fits_zero⟩
  obtain ⟨last, ran, -, places⟩ := run_laps db.producerVotes.byVotes db fits
  refine ⟨_, bind_ok ran, rfl, fun x => (places x).trans ?_⟩
  split
  · rfl
  · next absent =>
    rw [Index.mem_byVotes, not_not] at absent
    rw [absent, Option.map_none]

theorem run_advanceRace {runnerup : Address} (present : db.producerVotes.find runnerup ≠ none) :
    ∃ db', (advanceRace runnerup).run db = .ok () db' := by
  obtain ⟨race, found⟩ := Option.ne_none_iff_exists'.mp present
  have read : (onVotes (Index.get runnerup)).run db = .ok race db := zoom_ok (Index.run_get found)
  unfold advanceRace
  rw [bind_ok read, run_get_bind]
  -- A failure on the way starts the race over.
  have attempt : ∀ body : DbM Unit, ∃ db',
      (tryCatch body fun _ => resetProducerRace).run db = .ok () db' := by
    intro body
    cases ran : body.run db with
    | ok u db' => exact ⟨db', tryCatch_ok ran⟩
    | error e mid =>
      obtain ⟨db', reset, -⟩ := run_resetProducerRace mid
      exact ⟨db', (tryCatch_error ran).trans reset⟩
  exact attempt _

theorem voted_spec (db : Database) : (voted db).Nodup ∧
    (∀ a ∈ voted db, db.producerVotes.find a ≠ none) ∧
    (voted db).length ≤ Config.dposVotedProducersPerRound := by
  unfold voted
  split
  · refine ⟨(List.take_sublist _ _).nodup ?_, fun a member => ?_, List.length_take_le _ _⟩
    · simpa [Index.byVotes] using db.producerVotes.nodup_owners (fun _ => true) Index.votesBefore
    · exact Index.mem_byVotes.mp (List.mem_of_mem_take member)
  · exact ⟨List.nodup_nil, by simp, Nat.zero_le _⟩

theorem runnersup_spec (db : Database) : (runnersup db).Nodup ∧
    (∀ a ∈ runnersup db, db.producerVotes.find a ≠ none ∧ a ∉ voted db) ∧
    (runnersup db).length ≤ Config.dposRunnerupProducersPerRound := by
  unfold runnersup
  split
  · refine ⟨(List.take_sublist _ _).nodup (List.filter_sublist.nodup ?_), fun a member => ?_,
      List.length_take_le _ _⟩
    · simpa [Index.byProjectedRaceFinishTime] using
        db.producerVotes.nodup_owners (fun _ => true) Index.finishesBefore
    · have listed := List.mem_filter.mp (List.mem_of_mem_take member)
      exact ⟨Index.mem_byProjectedRaceFinishTime.mp listed.1, by simpa using listed.2⟩
  · exact ⟨List.nodup_nil, by simp, Nat.zero_le _⟩

theorem voted_ranked {a b : Address} (member : a ∈ voted db)
    (present : db.producerVotes.find b ≠ none) (absent : b ∉ voted db) :
    Index.Ranked Index.votesBefore db.producerVotes a b := by
  have pairs := Index.pairwise_ranked Index.votesBefore db.producerVotes
  unfold voted at member absent
  split at member
  · next counts =>
    rw [if_pos counts] at absent
    -- The list is cut after the sixteenth, and the cut separates the two.
    have listed := Index.mem_byVotes.mpr present
    rw [← List.take_append_drop Config.dposVotedProducersPerRound
      db.producerVotes.byVotes] at listed
    have after := (List.mem_append.mp listed).resolve_left absent
    rw [show (db.producerVotes.entries.toList.insertionSort Index.votesBefore).map (·.1) =
      db.producerVotes.byVotes from rfl,
      ← List.take_append_drop Config.dposVotedProducersPerRound db.producerVotes.byVotes,
      List.pairwise_append] at pairs
    exact pairs.2.2 a member b after
  · cases member

/-- Who has a place by the race finishes before everybody else who has no place by votes. -/
theorem runnersup_ranked {a b : Address} (member : a ∈ runnersup db)
    (present : db.producerVotes.find b ≠ none) (absent : b ∉ voted db) (other : b ≠ a) :
    Index.Ranked Index.finishesBefore db.producerVotes a b := by
  have pairs := Index.pairwise_ranked Index.finishesBefore db.producerVotes
  unfold runnersup at member
  split at member
  · have kept : (db.producerVotes.byProjectedRaceFinishTime.filter (· ∉ voted db)).Pairwise
        (Index.Ranked Index.finishesBefore db.producerVotes) :=
      List.Pairwise.sublist List.filter_sublist pairs
    have listed : b ∈ db.producerVotes.byProjectedRaceFinishTime.filter (· ∉ voted db) :=
      List.mem_filter.mpr ⟨Index.mem_byProjectedRaceFinishTime.mpr present, by simpa using absent⟩
    -- The one place goes to the first of those that are left.
    cases rest : db.producerVotes.byProjectedRaceFinishTime.filter (· ∉ voted db) with
    | nil =>
      rw [rest] at listed
      cases listed
    | cons first others =>
      rw [rest] at member kept listed
      rw [Config.dposRunnerupProducersPerRound, List.take_succ_cons, List.take_zero,
        List.mem_singleton] at member
      subst member
      exact (List.pairwise_cons.mp kept).1 b ((List.mem_cons.mp listed).resolve_left other)
  · cases member

theorem length_byVotes (db : Database) :
    db.producerVotes.byVotes.length = db.producerVotes.entries.size := by
  unfold Index.byVotes
  rw [List.length_map, List.length_insertionSort, Std.ExtTreeMap.length_toList]

/-- Producers chosen by merit: by votes, by the race, and from the queue for proof of work. -/
structure Merit (db : Database) (top runner workers : List Address) : Prop where
  topLength : top.length = min Config.dposVotedProducersPerRound db.producerVotes.entries.size
  topVoted : ∀ a ∈ top, db.producerVotes.find a ≠ none
  topFirst : ∀ a ∈ top, ∀ b, db.producerVotes.find b ≠ none → b ∉ top →
    Index.Ranked Index.votesBefore db.producerVotes a b
  runnerLength : runner.length ≤ Config.dposRunnerupProducersPerRound
  runnerVoted : ∀ a ∈ runner, db.producerVotes.find a ≠ none ∧ a ∉ top
  runnerFirst : ∀ a ∈ runner, ∀ b, db.producerVotes.find b ≠ none → b ∉ top → b ≠ a →
    Index.Ranked Index.finishesBefore db.producerVotes a b
  workersLength : workers.length ≤ Config.powProducersPerRound
  workersQueued : ∀ a ∈ workers, db.producers.Queued a ∧ db.producerVotes.find a = none

/-- What the next round of a database has to be. -/
structure NextRound (db : Database) (round : List Address) : Prop where
  size : round.length = Config.totalProducersPerRound
  different : (round.filter (· ≠ 0)).Nodup
  somebody : ∃ a ∈ round, a ≠ 0
  known : ∀ a ∈ round, a ≠ 0 → db.producers.find a ≠ none
  merit : Config.startMinerVotingBlock < db.dynamic.headBlockNumber.toNat →
    ∃ top runner workers, (round.filter (· ≠ 0)).Perm (top ++ runner ++ workers) ∧
      Merit db top runner workers

theorem NextRound.perm {round other : List Address} (next : NextRound db round)
    (same : other.Perm round) : NextRound db other := by
  have places := same.filter (· ≠ 0)
  obtain ⟨a, member, somebody⟩ := next.somebody
  refine ⟨same.length_eq.trans next.size, places.nodup_iff.mpr next.different,
    ⟨a, same.mem_iff.mpr member, somebody⟩, fun b inOther => next.known b (same.mem_iff.mp inOther),
    fun late => ?_⟩
  obtain ⟨top, runner, workers, parts, merit⟩ := next.merit late
  exact ⟨top, runner, workers, places.trans parts, merit⟩

theorem run_fillRound (genuine : Genuine block) (registry : Registry db) (selected : List Address) :
    ∃ workers db', (fillRound selected).run db = .ok (selected ++ workers ++ List.replicate
        (Config.totalProducersPerRound - (selected ++ workers).length) 0) db' ∧
      db'.producerVotes = db.producerVotes ∧
      Taken db (powPlaces db.dynamic.headBlockNumber selected.length) selected workers ∧
      (selected = [] → db.dynamic.numPowWitnesses ≠ 0 →
        db.dynamic.headBlockNumber.toNat ≤ Config.startMinerVotingBlock → workers ≠ []) := by
  obtain ⟨rest, dropped, votes, head, fewer⟩ := run_dropSurplusPow db
  obtain ⟨workers, db', took, taken⟩ := takePow_taken
    ((rest.producers.byPow.length + 1) * (rest.producers.byPow.length + 1))
    (powPlaces rest.dynamic.headBlockNumber selected.length) selected rest.producers.byPow rest
    fun a => Index.mem_byPow.mp
  have ran : (fillRound selected).run db = .ok (selected ++ workers ++ List.replicate
      (Config.totalProducersPerRound - (selected ++ workers).length) 0) db' := by
    unfold fillRound
    rw [bind_ok dropped, run_get_bind]
    dsimp only
    rw [bind_ok took]
    rfl
  refine ⟨workers, db', ran, (writeFrame_sameRace.notes.fillRound selected).of_ok ran, ?_,
    fun alone working early => ?_⟩
  · rw [← head]
    exact ⟨taken.few, taken.different, taken.new, fun a member => fewer a (taken.queued a member),
      fun a member => votes ▸ taken.voteless a member⟩
  · -- The queue is not empty, and its first member has no votes.
    subst alone
    have queue := byPow_ne_nil genuine registry working dropped
    obtain ⟨owner, others, list⟩ := List.exists_cons_of_ne_nil queue
    have queued : ∀ a ∈ owner :: others, rest.producers.Queued a := by
      rw [← list]
      exact fun a => Index.mem_byPow.mp
    have voteless : rest.producerVotes.find owner = none := by
      rw [votes]
      exact registry.exclusive owner (fewer owner (queued owner List.mem_cons_self))
    have places : powPlaces rest.dynamic.headBlockNumber ([] : List Address).length = 20 + 1 := by
      rw [head, powPlaces, if_neg (Nat.not_lt.mpr early)]
      rfl
    have fuel : ∃ n, (rest.producers.byPow.length + 1) * (rest.producers.byPow.length + 1) =
        n + 1 :=
      Nat.exists_eq_succ_of_ne_zero (by positivity)
    obtain ⟨n, fuel⟩ := fuel
    rw [places, fuel, list] at took
    exact takePow_ne_nil queued (List.not_mem_nil) voteless took

theorem selected_spec (db : Database) : (voted db ++ runnersup db).Nodup ∧
    (∀ a ∈ voted db ++ runnersup db, db.producerVotes.find a ≠ none) ∧
    (voted db ++ runnersup db).length ≤ 17 := by
  obtain ⟨top, topIn, topLength⟩ := voted_spec db
  obtain ⟨runner, runnerIn, runnerLength⟩ := runnersup_spec db
  refine ⟨top.append runner fun a inTop inRunner => (runnerIn a inRunner).2 inTop,
    fun a member => ?_, ?_⟩
  · rcases List.mem_append.mp member with inTop | inRunner
    · exact topIn a inTop
    · exact (runnerIn a inRunner).1
  · rw [List.length_append]
    rw [Config.dposVotedProducersPerRound] at topLength
    rw [Config.dposRunnerupProducersPerRound] at runnerLength
    omega

theorem powPlaces_le (head : U32) {selected : ℕ} (fits : selected ≤ 17) :
    selected + powPlaces head selected ≤ Config.totalProducersPerRound := by
  unfold powPlaces
  rw [Config.totalProducersPerRound, Config.powProducersPerRound]
  split <;> omega

theorem voted_ne_nil (racing : db.producerVotes.entries.size ≠ 0)
    (counts : votingCounts db = true) : voted db ≠ [] := by
  intro none_voted
  have length := congrArg List.length none_voted
  rw [voted, if_pos counts, List.length_take, length_byVotes, Config.dposVotedProducersPerRound,
    List.length_nil] at length
  omega

theorem NextRound.fill (registry : Registry db)
    (racing : db.producerVotes.entries.size ≠ 0) {workers : List Address}
    (taken : Taken db (powPlaces db.dynamic.headBlockNumber (voted db ++ runnersup db).length)
      (voted db ++ runnersup db) workers)
    (worked : voted db ++ runnersup db = [] → db.dynamic.numPowWitnesses ≠ 0 →
      db.dynamic.headBlockNumber.toNat ≤ Config.startMinerVotingBlock → workers ≠ []) :
    NextRound db (voted db ++ runnersup db ++ workers ++ List.replicate
      (Config.totalProducersPerRound - (voted db ++ runnersup db ++ workers).length) 0) := by
  obtain ⟨different, present, short⟩ := selected_spec db
  have places := powPlaces_le db.dynamic.headBlockNumber short
  -- Nobody who is chosen has the null address.
  have somebody : ∀ a ∈ voted db ++ runnersup db ++ workers, a ≠ 0 := by
    rintro a member rfl
    rcases List.mem_append.mp member with selected | worker
    · exact present 0 selected registry.nobody.1
    · obtain ⟨producer, found, -⟩ := taken.queued 0 worker
      rw [registry.nobody.2] at found
      cases found
  have chosen : (voted db ++ runnersup db ++ workers ++ List.replicate
      (Config.totalProducersPerRound - (voted db ++ runnersup db ++ workers).length) 0).filter
        (· ≠ 0) = voted db ++ runnersup db ++ workers := by
    rw [List.filter_append, List.filter_eq_self.mpr
        fun a member => by simpa using somebody a member,
      List.filter_eq_nil_iff.mpr fun a member => by simpa using (List.mem_replicate.mp member).2,
      List.append_nil]
  refine ⟨?_, ?_, ?_, ?_, fun late => ?_⟩
  · have few := taken.few
    simp only [List.length_append, List.length_replicate] at few places ⊢
    omega
  · rw [chosen]
    exact different.append taken.different fun a selected worker => taken.new a worker selected
  · -- Votes count, or somebody works.
    by_cases counts : votingCounts db = true
    · obtain ⟨a, member⟩ := List.exists_mem_of_ne_nil _ (voted_ne_nil racing counts)
      exact ⟨a, by simp [member], somebody a (by simp [member])⟩
    · have none_selected : voted db ++ runnersup db = [] := by
        rw [voted, runnersup, if_neg counts, if_neg counts]
        rfl
      have facts : db.dynamic.numPowWitnesses ≠ 0 ∧
          db.dynamic.headBlockNumber.toNat ≤ Config.startMinerVotingBlock := by
        simpa [votingCounts] using counts
      obtain ⟨a, member⟩ := List.exists_mem_of_ne_nil _ (worked none_selected facts.1 facts.2)
      exact ⟨a, by simp [member], somebody a (by simp [member])⟩
  · intro a member nonzero
    have listed : a ∈ voted db ++ runnersup db ++ workers := by
      rw [← chosen]
      exact List.mem_filter.mpr ⟨member, by simpa using nonzero⟩
    rcases List.mem_append.mp listed with selected | worker
    · exact registry.registered a (present a selected)
    · obtain ⟨producer, found, -⟩ := taken.queued a worker
      simp [found]
  · have counts : votingCounts db = true := by simp [votingCounts, late]
    refine ⟨voted db, runnersup db, workers, by rw [chosen], ?_⟩
    refine ⟨?_, (voted_spec db).2.1, fun a member b racer absent =>
      voted_ranked member racer absent, (runnersup_spec db).2.2, (runnersup_spec db).2.1,
      fun a member b racer absent other => runnersup_ranked member racer absent other, ?_,
      fun a member => ⟨taken.queued a member, taken.voteless a member⟩⟩
    · rw [voted, if_pos counts, List.length_take, length_byVotes]
    · refine taken.few.trans ?_
      rw [powPlaces, if_pos late]

theorem run_calculateNextRound (genuine : Genuine block)
    (registry : Registry db) (racing : db.producerVotes.entries.size ≠ 0) :
    ∃ round db', calculateNextRound.run db = .ok round db' ∧ NextRound db round := by
  obtain ⟨workers, filled, ran, votes, taken, worked⟩ :=
    run_fillRound genuine registry (voted db ++ runnersup db)
  have next := NextRound.fill registry racing taken worked
  unfold calculateNextRound
  rw [run_get_bind]
  dsimp only
  rw [if_neg racing, bind_ok ran]
  cases last : (runnersup db).getLast? with
  | none => exact ⟨_, filled, rfl, next⟩
  | some runnerup =>
    -- The runner-up is still in the race when it is advanced.
    have present : filled.producerVotes.find runnerup ≠ none := by
      rw [votes]
      exact ((runnersup_spec db).2.1 runnerup (List.mem_of_mem_getLast? last)).1
    obtain ⟨db', advanced⟩ := run_advanceRace present
    exact ⟨_, db', bind_ok advanced, next⟩

end Schedule

namespace Move

theorem totalPow {block : Applied} {s t : Database} (move : Move block s t) :
    t.dynamic.totalPow = s.dynamic.totalPow := by
  cases move <;> rfl

end Move

namespace Controller

/-- The registry holds, and at most so many admissions have been counted. -/
structure Registered (limit : ℕ) (db : Database) : Prop extends Registry db where
  total : db.dynamic.totalPow.toNat ≤ limit

namespace Registered

variable {block : Applied} {limit : ℕ} {db db' : Database}

theorem move (genuine : Genuine block) (move : Move block db db')
    (start : Registered limit db) : Registered limit db' := by
  refine ⟨start.toRegistry.move genuine move, ?_⟩
  rw [move.totalPow]
  exact start.total

theorem admits (genuine : Genuine block) (admits : Admits block.view.powOps db db')
    (room : limit + block.view.powOps.length < 2 ^ 64) (start : Registered limit db) :
    Registered (limit + block.view.powOps.length) db' := by
  have total := start.total
  obtain ⟨registry, bound⟩ := start.toRegistry.admits genuine.workers admits (by omega)
  exact ⟨registry, by omega⟩

end Registered

/-- The operations that a run has collected. -/
def collected (blocks : List Applied) : ℕ := (blocks.map fun block => block.view.powOps.length).sum

theorem collected_concat (blocks : List Applied) (block : Applied) :
    collected (blocks ++ [block]) = collected blocks + block.view.powOps.length := by
  simp [collected]

theorem registered_initializeChain {initialProducers : List Address} {c : Controller}
    (started : initializeChain initialProducers = some c) : Registered 0 c.db := by
  have found := find_initializeChain started
  have nobody : (0 : Address) ∉ genesisProducers initialProducers := by
    simp [genesisProducers]
  have idle : ∀ a, ¬ c.db.producers.Queued a := by
    rintro a ⟨producer, same, queued⟩
    rw [(found a).2] at same
    split at same
    · cases same
      exact queued rfl
    · cases same
  have empty : c.db.producers.byPow = [] :=
    List.eq_nil_iff_forall_not_mem.mpr fun a member => idle a (Index.mem_byPow.mp member)
  have start := dynamic_initializeChain started
  refine ⟨⟨fun a voted => ?_, fun a queued => absurd queued (idle a), ?_, ?_⟩, ?_⟩
  · rw [(found a).1] at voted
    rw [(found a).2]
    split at voted
    · next member => simp [member]
    · exact absurd rfl voted
  · rw [empty, start]
    rfl
  · rw [(found 0).1, (found 0).2, if_neg nobody, if_neg nobody]
    exact ⟨rfl, rfl⟩
  · rw [start]
    exact Nat.le_refl 0

/-- A database that a run leads to: after its last block, or in its last block just before a round
is chosen. -/
inductive Reached (initialProducers : List Address) : List Applied → Database → Prop
  | after {blocks : List Applied} {c : Controller}
    (replayed : replay initialProducers blocks = some c) : Reached initialProducers blocks c.db
  | within {blocks : List Applied} {c m : Controller} {block : Applied} {db : Database}
    (replayed : replay initialProducers blocks = some c)
    (opened : (openBlock block.lastBlockId block.view block.header).run
      { c with db := c.db.startUndoSession } = .ok () m)
    (headed : (updateGlobalDynamicData block.header).run m.db = .ok () db) :
    Reached initialProducers (blocks ++ [block]) db

/-- An invariant with a bound on the admissions, which every phase of a good block keeps. -/
structure Phased (good : Applied → Prop) (I : ℕ → Database → Prop) : Prop where
  start : ∀ {initialProducers c}, initializeChain initialProducers = some c → I 0 c.db
  move : ∀ {block limit db db'}, good block → Move block db db' → I limit db → I limit db'
  admits : ∀ {block limit db db'}, good block → Admits block.view.powOps db db' →
    limit + block.view.powOps.length < 2 ^ 64 → I limit db →
      I (limit + block.view.powOps.length) db'
  congr : ∀ {limit db db'}, I limit db → db'.producerVotes.find = db.producerVotes.find →
    db'.producers.find = db.producers.find →
    db'.dynamic.numPowWitnesses = db.dynamic.numPowWitnesses →
    db'.dynamic.totalPow = db.dynamic.totalPow → I limit db'

namespace Phased

variable {good : Applied → Prop} {I : ℕ → Database → Prop} {block : Applied} {limit : ℕ}
  {db db' : Database} {c m d : Controller} {initialProducers : List Address} {blocks : List Applied}

variable (phased : Phased good I)

include phased

theorem moves (fits : good block) (moves : Moves block db db') (held : I limit db) : I limit db' :=
  Moves.keeps (fun _ _ step => phased.move fits step) moves held

theorem startUndoSession (held : I limit db) : I limit db.startUndoSession :=
  phased.congr held rfl rfl rfl rfl

theorem openBlock (fits : good block) (room : limit + block.view.powOps.length < 2 ^ 64)
    (held : I limit c.db)
    (opened : (openBlock block.lastBlockId block.view block.header).run
      { c with db := c.db.startUndoSession } = .ok () m) :
    I (limit + block.view.powOps.length) m.db := by
  obtain ⟨checked, queued, check, admitted, follow⟩ := openBlock_phases opened
  have first := phased.moves fits check (phased.startUndoSession held)
  exact phased.moves fits follow (phased.admits fits admitted room first)

theorem accept (fits : good block) (room : limit + block.view.powOps.length < 2 ^ 64)
    (held : I limit c.db) (accepted : c.accept block = some d) :
    I (limit + block.view.powOps.length) d.db := by
  obtain ⟨m, headed, chosen, signed, newLast, opened, headedRan, choice, signedRan, -, rfl⟩ :=
    accept_steps accepted
  have first := phased.moves fits (Moves.updateGlobalDynamicData.of_ok headedRan)
    (phased.openBlock fits room held opened)
  have second := updateGlobalProperties_keeps (fun _ _ step => phased.move fits step)
    (fun _ _ kept => phased.congr kept rfl rfl rfl rfl) choice first
  have third := phased.moves fits (Moves.updateSigningProducer.of_ok signedRan) second
  rw [db_settle]
  unfold settleDb
  split
  · exact phased.congr third rfl rfl rfl rfl
  · exact phased.congr third rfl rfl rfl rfl

theorem replay (fits : ∀ block ∈ blocks, good block) (few : collected blocks < 2 ^ 64)
    (replayed : replay initialProducers blocks = some c) : I (collected blocks) c.db := by
  induction blocks using List.reverseRecOn generalizing c with
  | nil =>
    rw [replay_nil] at replayed
    exact phased.start replayed
  | append_singleton earlier block ih =>
    obtain ⟨m, before, accepted⟩ := replay_concat.mp replayed
    rw [collected_concat] at few ⊢
    have held := ih (fun b member => fits b (List.mem_append_left _ member)) (by omega) before
    exact phased.accept (fits block (by simp)) few held accepted

theorem reached (fits : ∀ block ∈ blocks, good block) (few : collected blocks < 2 ^ 64)
    (reached : Reached initialProducers blocks db) : I (collected blocks) db := by
  cases reached with
  | after replayed => exact phased.replay fits few replayed
  | @within earlier c m block db replayed opened headed =>
    have own := fits block (by simp)
    rw [collected_concat] at few ⊢
    have held := phased.replay (fun b member => fits b (List.mem_append_left _ member))
      (by omega) replayed
    exact phased.moves own (Moves.updateGlobalDynamicData.of_ok headed)
      (phased.openBlock own few held opened)

end Phased

theorem phased_registered : Phased Genuine Registered where
  start := registered_initializeChain
  move := Registered.move
  admits := Registered.admits
  congr held votes producers num total :=
    ⟨held.toRegistry.congr (congrFun votes) (congrFun producers) num, total ▸ held.total⟩

/-- In every run, with somebody in the race, the choice of the next round returns what it has to
be, whatever order the shuffle gives it. -/
theorem calculateNextRound_of_reached {initialProducers : List Address} {blocks : List Applied}
    {db : Database} (genuine : ∀ block ∈ blocks, Genuine block)
    (few : collected blocks < 2 ^ 64) (reached : Reached initialProducers blocks db)
    (racing : db.producerVotes.entries.size ≠ 0) (b : BlockHeader) :
    ∃ round db', (calculateNextRound b).run db = .ok round db' ∧ Schedule.NextRound db round := by
  have registry := (phased_registered.reached genuine few reached).toRegistry
  -- The choice does not depend on a block, so any block without votes or work will do.
  have idle : Genuine (Applied.signed 1 1 1 ∅) :=
    ⟨by simp [Applied.signed, Applied.Candidate], by simp [Applied.signed]⟩
  obtain ⟨round, db', ran, next⟩ := Schedule.run_calculateNextRound idle registry racing
  exact ⟨_, db', bind_ok ran, next.perm (Random.shuffle_perm _ _ (Nat.le_refl _))⟩

/-- After the first block of the only producer, its next round can be chosen. -/
theorem calculateNextRound_of_reached_sole : ∃ c round db',
    replay [100] [.signed 100 1 1513580387 ∅] = some c ∧
    (calculateNextRound (.signed 100 21 1513581582)).run c.db = .ok round db' ∧
    Schedule.NextRound c.db round := by
  have evaluated : ((replay [100] [.signed 100 1 1513580387 ∅]).any fun c =>
      decide (c.db.producerVotes.entries.size ≠ 0)) = true := by decide +kernel
  obtain ⟨c, replayed, racing⟩ := (Option.any_eq_true _ _).mp evaluated
  have genuine : ∀ block ∈ [Applied.signed 100 1 1513580387 ∅], Genuine block := by
    intro block member
    rw [List.mem_singleton] at member
    subst member
    exact ⟨by simp [Applied.signed, Applied.Candidate], by simp [Applied.signed]⟩
  obtain ⟨round, db', ran, next⟩ := calculateNextRound_of_reached genuine (by decide)
    (.after replayed) (of_decide_eq_true racing) (.signed 100 21 1513581582)
  exact ⟨c, round, db', replayed, ran, next⟩

end Controller

end Etiam
