import Etiam.Producer.Frames
import Etiam.Producer.Pvomi
import Etiam.Vote.Manager

/-! The race as a mirror of the candidates: who is in it, and at which speed. -/

namespace Etiam

open Exec Database

/-- The speed of an account in the race. -/
def Database.speed (db : Database) (a : Address) : Option ShareType :=
  (db.producerVotes.find a).map (·.speed)

/-- The same accounts race at the same speeds, wherever they have got to. -/
def SameSpeeds (before after : Database) : Prop := ∀ a, after.speed a = before.speed a

/-- What is written outside the race leaves the speeds. -/
theorem writeFrame_sameSpeeds : WriteFrame SameSpeeds where
  refl _ _ := rfl
  trans _ _ _ first second a := (second a).trans (first a)
  producer _ _ := Within.zoom fun _ _ => rfl
  addProducer _ _ := Within.zoom fun _ _ => rfl
  global _ := fun _ _ => rfl
  queue _ _ := fun _ _ => rfl

/-- Whoever starts a lap when the race is advanced can finish it within race time. -/
def LapsFit (db : Database) : Prop :=
  ∀ runnerup race, (Schedule.runnersup db).getLast? = some runnerup →
    db.producerVotes.find runnerup = some race →
    (Schedule.lapCompleters db.producerVotes runnerup).length < db.producerVotes.entries.size →
    race.projectedFinishTime < maxUInt128 →
    ∀ a ∈ Schedule.lapCompleters db.producerVotes runnerup, ∀ speed, db.speed a = some speed →
      race.projectedFinishTime.toNat + (Race.timeToFinish speed 0).toNat < 2 ^ 128

/-- A race that stays as it is keeps its speeds. -/
theorem SameRace.sameSpeeds {db s : Database} (same : SameRace db s) : SameSpeeds db s :=
  fun a => by rw [speed, show s.producerVotes = db.producerVotes from same, speed]

/-- A property that the laps of a race keep, together with the speeds, as long as they are started
without a failure. -/
structure LapFrame (base : Database) (I : Database → Prop) : Prop where
  speeds : ∀ s, I s → SameSpeeds base s
  writes : WriteFrame fun s t => I s → I t
  started : ∀ (s : Database) (a : Address) (race lap : Race) (now : UInt128), I s →
    s.producerVotes.find a = some race → Race.startNewRaceLap now race = .ok lap →
    I { s with producerVotes := s.producerVotes.modify a lap }
  time : ∀ (s : Database) (now : UInt128), I s →
    I { s with currentRaceTime := s.currentRaceTime.modify fun _ => now }

/-- The speeds themselves are kept by every lap that starts. -/
theorem lapFrame_sameSpeeds (base : Database) : LapFrame base (SameSpeeds base) where
  speeds _ same := same
  writes :=
    { refl := fun _ => id
      trans := fun _ _ _ first second same => second (first same)
      producer := fun _ _ => Within.zoom fun _ same => same
      addProducer := fun _ _ => Within.zoom fun _ same => same
      global := fun _ _ same => same
      queue := fun _ _ _ same => same }
  started s a race lap now same found started b := by
    rw [← same b]
    simp only [Database.speed, Index.find_modify found]
    split
    · next own =>
      subst own
      rw [found, Option.map_some, Option.map_some, Race.speed_of_update started]
    · rfl
  time _ _ same := same

namespace LapFrame

variable {base : Database} {I : Database → Prop}

/-- An account starts a lap that fits without a failure. -/
theorem lap (frame : LapFrame base I) {a : Address} {now : UInt128}
    (fits : ∀ speed, base.speed a = some speed →
      now.toNat + (Race.timeToFinish speed 0).toNat < 2 ^ 128) :
    Within (fun s t => I s → I t) (onVotes (Index.change a (Race.startNewRaceLap now))) := by
  refine Within.zoom fun s kept => ?_
  cases found : s.producerVotes.find a with
  | none =>
    rw [Index.run_change_none found]
    exact kept
  | some race =>
    have speed : base.speed a = some race.speed := by
      rw [← frame.speeds s kept a, Database.speed, found]
      rfl
    obtain ⟨lap, started⟩ := (Race.update_isOk_iff race.speed 0 now).mpr (fits _ speed)
    rw [Index.run_change found started]
    exact frame.started s a race lap now kept found started

/-- So does a list of accounts, at the race time of their laps. -/
theorem laps (frame : LapFrame base I) {owners : List Address} {now : UInt128}
    (fit : ∀ a ∈ owners, ∀ speed, base.speed a = some speed →
      now.toNat + (Race.timeToFinish speed 0).toNat < 2 ^ 128) :
    Within (fun s t => I s → I t)
      (owners.forM (fun a => onVotes (Index.change a (Race.startNewRaceLap now))) >>=
        fun _ => setRaceTime now) :=
  frame.writes.notes.bind (Within.forM frame.writes.refl frame.writes.trans
    fun a member => frame.lap (fit a member)) fun _ s kept => frame.time s now kept

/-- Starting the race anew keeps what the laps keep. -/
theorem resetProducerRace (frame : LapFrame base I) :
    Within (fun s t => I s → I t) Schedule.resetProducerRace := by
  -- At race time zero there is room for every lap.
  refine Within.get_bind fun s => frame.laps (fun a _ speed _ => ?_) s
  have bound := (Race.timeToFinish speed 0).isLt
  simpa using bound

variable {db : Database}

/-- Advancing the race keeps what the laps keep, if they fit. -/
theorem advanceRace (frame : LapFrame db I) (fit : LapsFit db)
    {runnerup : Address} (chosen : (Schedule.runnersup db).getLast? = some runnerup) :
    Ensures (fun s => SameRace db s ∧ I s) (Schedule.advanceRace runnerup) I := by
  rintro s ⟨same, kept⟩
  have races : s.producerVotes = db.producerVotes := same
  unfold Schedule.advanceRace
  cases found : s.producerVotes.find runnerup with
  | none =>
    have failed : (onVotes (Index.get runnerup)).run s = .error .outOfRange s :=
      zoom_error (Index.run_get_none found)
    rw [bind_error failed]
    exact kept
  | some race =>
    have read : (onVotes (Index.get runnerup)).run s = .ok race s :=
      zoom_ok (Index.run_get found)
    rw [bind_ok read, run_get_bind]
    refine Within.tryCatch frame.writes.trans ?_ (fun _ => frame.resetProducerRace) s kept
    split
    · next goes =>
      rw [races] at goes found ⊢
      exact frame.laps fun a member speed =>
        fit runnerup race chosen found goes.1 goes.2 a member speed
    · exact frame.resetProducerRace

/-- Choosing the next round keeps what the laps keep. -/
theorem calculateNextRound (frame : LapFrame db I) (fit : LapsFit db)
    (start : I db) : I (final (Schedule.calculateNextRound.run db)) := by
  unfold Schedule.calculateNextRound
  rw [run_get_bind]
  dsimp only
  split
  · exact start
  · -- The places are filled before the race is advanced, and leave the race alone.
    have filled : Ensures (fun s => SameRace db s ∧ I s)
        (Schedule.fillRound (Schedule.voted db ++ Schedule.runnersup db))
        (fun s => SameRace db s ∧ I s) := fun s ⟨same, kept⟩ =>
      ⟨(writeFrame_sameRace.notes.fillRound _ s).trans same, frame.writes.notes.fillRound _ s kept⟩
    refine filled.bind (fun round => ?_) (fun _ => And.right) db ⟨rfl, start⟩
    split
    · exact fun _ => And.right
    · next runnerup chosen =>
      exact (frame.advanceRace fit chosen).bind (fun _ _ kept => kept) fun _ kept => kept

/-- Updating the round keeps what the laps keep. -/
theorem updateGlobalProperties {b : BlockHeader} (frame : LapFrame db I)
    (fit : b.num.toNat % Config.totalProducersPerRound = 0 → LapsFit db) (start : I db) :
    I (final ((Controller.updateGlobalProperties b).run db)) := by
  unfold Controller.updateGlobalProperties
  split
  · next ends =>
    have chosen : Ensures (· = db) Schedule.calculateNextRound I := by
      rintro s rfl
      exact frame.calculateNextRound (fit ends) start
    have shuffled : Ensures (· = db) (Controller.calculateNextRound b) I :=
      chosen.bind (fun _ _ kept => kept) fun _ kept => kept
    have after : ∀ schedule, Within (fun s t => I s → I t) (do
        Controller.updateHardforkVotes
        modifyGlobal (Controller.setActiveProducers schedule)) := fun _ =>
      frame.writes.notes.bind frame.writes.notes.updateHardforkVotes fun _ => frame.writes.global _
    have body := shuffled.bind (fun schedule s kept => after schedule s kept) fun _ kept => kept
    refine Ensures.tryCatch body ?_ db rfl
    exact fun _ _ kept => kept
  · exact start

end LapFrame

namespace Controller

variable {c m d : Controller} {genesis initialProducers : List Address}

/-- A block is opened by following the vote table, with the race as it was. -/
theorem openBlock_run {lastBlockId : Hash} {view : ParentView} {b : BlockHeader}
    (opened : (openBlock lastBlockId view b).run c = .ok () m) :
    ∃ db, (updatePvomiPerblock view.votes).run { c with db } = .ok () m ∧ SameRace c.db db := by
  obtain ⟨_, c1, validated, rest⟩ := bind_eq_ok.mp opened
  obtain ⟨_, c2, processed, rest⟩ := bind_eq_ok.mp rest
  obtain ⟨_, c3, worked, followed⟩ := bind_eq_ok.mp rest
  obtain ⟨db1, ran1, rfl⟩ := zoom_eq_ok.mp validated
  obtain ⟨db2, ran2, rfl⟩ := zoom_eq_ok.mp processed
  obtain ⟨db3, ran3, rfl⟩ := zoom_eq_ok.mp worked
  have first := (writeFrame_sameRace.notes.validateBlockHeader b).of_ok ran1
  have second := (writeFrame_sameRace.notes.processBlockHeader b).of_ok ran2
  have third := (writeFrame_sameRace.notes.updatePow lastBlockId view.powOps).of_ok ran3
  exact ⟨db3, followed, Eq.trans third (Eq.trans second first)⟩

/-- What applying a block does to the race after it was brought up to date. -/
theorem applyBlock_sameSpeeds {lastBlockId : Hash} {view : ParentView} {b : BlockHeader}
    (opened : (openBlock lastBlockId view b).run c = .ok () m)
    (fit : ∀ db, (updateGlobalDynamicData b).run m.db = .ok () db →
      b.num.toNat % Config.totalProducersPerRound = 0 → LapsFit db)
    (applied : (applyBlock lastBlockId view b).run c = .ok () d) :
    SameSpeeds m.db d.db := by
  unfold applyBlock at applied
  rw [bind_ok opened] at applied
  obtain ⟨_, n, advanced, rest⟩ := bind_eq_ok.mp applied
  obtain ⟨db, ran, rfl⟩ := zoom_eq_ok.mp advanced
  obtain ⟨_, o, chosen, confirmed⟩ := bind_eq_ok.mp rest
  obtain ⟨db', chose, rfl⟩ := zoom_eq_ok.mp chosen
  have counted : SameSpeeds m.db db := by
    unfold updateGlobalDynamicData at ran
    rw [run_get_bind] at ran
    obtain ⟨_, counted, counting, moved⟩ := bind_eq_ok.mp ran
    have within := (writeFrame_sameSpeeds.countMissed
      (fun a => writeFrame_sameSpeeds.producer a _) b _).of_ok counting
    cases moved
    exact within
  have round := (lapFrame_sameSpeeds db).updateGlobalProperties (fit db ran) fun _ => rfl
  rw [chose] at round
  have finish := (writeFrame_sameSpeeds.confirmBlock (fun _ _ _ => rfl) b).of_ok confirmed
  exact fun a => (finish a).trans ((round a).trans (counted a))

/-- The votes received by an account that is a candidate, according to a vote table. -/
def candidateVotes (votes : Std.ExtTreeMap Address VoteInfo) (a : Address) : Option U64 :=
  match votes[a]? with
  | some info => if info.isCandidate then some info.receivedVote else none
  | none => none

/-- What is kept of an account shows the votes it has as a candidate. The place of a genesis
producer is reserved, which does not make it a candidate. -/
structure Shown (reserved : Prop) (votes : Option U64) (kept : Option U64 × Option Race) :
    Prop where
  remembered : kept.1 = votes
  raced : ¬ reserved → kept.2.map (·.speed) = votes
  apart : reserved → kept.2.isSome ∧ votes = none

/-- Following an account shows the votes it has now. -/
theorem Shown.follow {reserved : Prop} {votes : Option U64}
    {kept after : Option U64 × Option Race} {now : UInt128} {info : VoteInfo}
    (shown : Shown reserved votes kept)
    (entering : votes = none → info.isCandidate = true → info.receivedVote = 0)
    (staying : votes.isSome → info.isCandidate = true)
    (followed : followAccount now info kept = .ok after) :
    Shown reserved (if info.isCandidate then some info.receivedVote else none) after := by
  obtain ⟨rfl, raced, apart⟩ := shown
  cases followed_of_ok followed with
  | passed idle =>
    -- The account was no candidate before, or it would have stayed one.
    have unknown : kept.1 = none := by
      by_contra known
      exact absurd (staying (Option.isSome_iff_ne_none.mpr known)) (by simp [idle])
    rw [unknown] at raced apart
    exact ⟨by simp [idle, unknown], by simpa [idle] using raced, by simpa [idle] using apart⟩
  | same candidate known =>
    rw [known] at raced apart
    exact ⟨by simp [candidate, known], by simpa [candidate] using raced,
      by simpa [candidate] using apart⟩
  | entered candidate nothing started =>
    -- A new candidate starts without speed, as it has no votes.
    subst nothing
    have speed : Race.speed _ = 0 := Race.speed_of_update started
    refine ⟨by simp [candidate], fun _ => ?_, fun taken => absurd (apart taken).1 (by simp)⟩
    simp [candidate, speed, entering rfl candidate]
  | moved candidate was moves =>
    -- The speed changes by as much as the votes.
    subst was
    have free : ¬ reserved := fun taken => absurd (apart taken).2 (by simp)
    have speed := raced free
    have speed' := Race.speed_of_update moves
    refine ⟨by simp [candidate], fun _ => ?_, fun taken => absurd taken free⟩
    simp only [Option.map_some, Option.some.injEq] at speed ⊢
    rw [speed', speed, add_sub_cancel, if_pos candidate]

/-- Dropping an account shows that it has none. -/
theorem Shown.drop {reserved : Prop} {votes : Option U64} {kept after : Option U64 × Option Race}
    (shown : Shown reserved votes kept) (dropped : dropAccount kept = .ok after) :
    Shown reserved none after := by
  obtain ⟨memory, place⟩ := kept
  obtain ⟨rfl, raced, apart⟩ := shown
  dsimp only at raced apart
  rcases memory with _ | known
  · cases dropped
    exact ⟨rfl, raced, apart⟩
  · rcases place with _ | race
    · cases dropped
    · cases dropped
      exact ⟨rfl, fun _ => rfl, fun taken => absurd (apart taken).2 (by simp)⟩

/-- The race shows the candidates of a vote table, with the places of genesis producers apart. -/
def Mirrors (genesis : List Address) (votes : Std.ExtTreeMap Address VoteInfo)
    (c : Controller) : Prop :=
  ∀ a, Shown (a ∈ genesis) (candidateVotes votes a) (c.tracked a)

/-- From one vote table to the next, candidates enter without votes and leave for good. -/
structure Steady (before after : Std.ExtTreeMap Address VoteInfo) : Prop where
  entering : ∀ a received, candidateVotes before a = none →
    candidateVotes after a = some received → received = 0
  staying : ∀ a, (candidateVotes before a).isSome → a ∈ after → (candidateVotes after a).isSome

/-- After a steady change of the vote table the race shows the new one. -/
theorem Mirrors.follow {before after : Std.ExtTreeMap Address VoteInfo}
    (mirrors : Mirrors genesis before c) (steady : Steady before after)
    (ran : (updatePvomiPerblock after).run c = .ok () d) : Mirrors genesis after d := by
  intro a
  have outcome := ((updatePvomiPerblock_run c after).2 d ran).2 a
  have entering := steady.entering a
  have staying := steady.staying a
  unfold pvomiOutcome at outcome
  cases listed : after[a]? with
  | none =>
    rw [listed] at outcome
    rw [candidateVotes, listed]
    exact (mirrors a).drop outcome
  | some info =>
    rw [listed] at outcome
    simp only [candidateVotes, listed] at entering staying ⊢
    have present : a ∈ after := Std.ExtTreeMap.mem_iff_isSome_getElem?.mpr (by simp [listed])
    refine (mirrors a).follow (fun none_before candidate => ?_) (fun some_before => ?_) outcome
    · exact entering info.receivedVote none_before (by simp [candidate])
    · by_contra stands
      have gone := staying some_before present
      simp [stands] at gone

/-- The first state shows that there is no candidate. -/
theorem mirrors_initializeChain (started : initializeChain initialProducers = some c) :
    Mirrors (genesisProducers initialProducers) ∅ c := by
  simp only [initializeChain, Option.bind_eq_bind, Option.bind_eq_some_iff] at started
  obtain ⟨db, added, made⟩ := started
  cases made
  intro a
  have places := (find_addGenesisProducers added a).1
  have nobody : candidateVotes ∅ a = none := by simp [candidateVotes]
  have empty : (genesisDatabase initialProducers).producerVotes.find a = none := by
    simp [genesisDatabase, Index.find, Index.empty]
  rw [nobody]
  by_cases named : a ∈ genesisProducers initialProducers
  · rw [if_pos named] at places
    exact ⟨by simp [tracked], fun free => absurd named free, fun _ => by simp [tracked, places]⟩
  · rw [if_neg named, empty] at places
    exact ⟨by simp [tracked], fun _ => by simp [tracked, places], fun taken => absurd taken named⟩

/-- The vote table that the last block of a run was applied with. -/
def lastVotes (blocks : List Applied) : Std.ExtTreeMap Address VoteInfo :=
  match blocks.getLast? with
  | some block => block.view.votes
  | none => ∅

/-- The blocks of a run see steady vote tables, and every lap that is started can be finished. -/
structure Regular (initialProducers : List Address) (blocks : List Applied) : Prop where
  steady : ∀ earlier block later, blocks = earlier ++ block :: later →
    Steady (lastVotes earlier) block.view.votes
  fit : ∀ c block m db, Applies initialProducers blocks c block →
    (openBlock block.lastBlockId block.view block.header).run
      { c with db := c.db.startUndoSession } = .ok () m →
    (updateGlobalDynamicData block.header).run m.db = .ok () db →
    block.header.num.toNat % Config.totalProducersPerRound = 0 → LapsFit db

/-- A regular run without its last block is regular. -/
theorem Regular.init {blocks : List Applied} {block : Applied}
    (regular : Regular initialProducers (blocks ++ [block])) :
    Regular initialProducers blocks where
  steady earlier next later split :=
    regular.steady earlier next (later ++ [block]) (by simp [split])
  fit c next m db applies := regular.fit c next m db (applies.append [block])

/-- Opening a block makes the race show the vote table of the block. -/
theorem Mirrors.openBlock {before : Std.ExtTreeMap Address VoteInfo}
    {block : Applied} (mirrors : Mirrors genesis before c) (steady : Steady before block.view.votes)
    (opened : (openBlock block.lastBlockId block.view block.header).run
      { c with db := c.db.startUndoSession } = .ok () m) :
    Mirrors genesis block.view.votes m := by
  obtain ⟨db, followed, same⟩ := openBlock_run opened
  refine Mirrors.follow (fun a => ?_) steady followed
  -- The session and the steps before leave what is kept of the account alone.
  have kept : tracked { c with db } a = c.tracked a := by
    rw [tracked, tracked, show db.producerVotes = _ from same]
    rfl
  rw [kept]
  exact mirrors a

/-- What the race shows depends on the speeds and the remembered votes only. -/
theorem Mirrors.congr {votes : Std.ExtTreeMap Address VoteInfo}
    (mirrors : Mirrors genesis votes c) (speeds : SameSpeeds c.db d.db)
    (memory : SameMemory c d) : Mirrors genesis votes d := by
  intro a
  have speed : (d.tracked a).2.map (·.speed) = (c.tracked a).2.map (·.speed) := speeds a
  have same : (d.tracked a).1 = (c.tracked a).1 := by
    rw [tracked, tracked, show d.allVotes = c.allVotes from memory]
  obtain ⟨remembered, raced, apart⟩ := mirrors a
  refine ⟨same.trans remembered, fun free => speed.trans (raced free), fun taken => ?_⟩
  have there := congrArg Option.isSome speed
  rw [Option.isSome_map, Option.isSome_map] at there
  exact ⟨there.trans (apart taken).1, (apart taken).2⟩

/-- After every regular run the race shows the last vote table, and no genesis producer has been
a candidate. -/
theorem mirrors_replay {blocks : List Applied} (regular : Regular initialProducers blocks)
    (replayed : replay initialProducers blocks = some c) :
    Mirrors (genesisProducers initialProducers) (lastVotes blocks) c ∧
      ∀ block ∈ blocks, ∀ a ∈ genesisProducers initialProducers,
        candidateVotes block.view.votes a = none := by
  induction blocks using List.reverseRecOn generalizing c with
  | nil =>
    rw [replay_nil] at replayed
    exact ⟨mirrors_initializeChain replayed, fun _ member => absurd member (by simp)⟩
  | append_singleton earlier block ih =>
    obtain ⟨b, before, accepted⟩ := replay_concat.mp replayed
    have applied := accept_eq_some.mp accepted
    obtain ⟨_, m, opened, -⟩ := bind_eq_ok.mp applied
    obtain ⟨mirrors, never⟩ := ih regular.init before
    have followed := mirrors.openBlock (regular.steady earlier block [] rfl) opened
    have closed := applyBlock_sameSpeeds opened
      (fun db => regular.fit b block m db (applies_concat before block) opened) applied
    have last : lastVotes (earlier ++ [block]) = block.view.votes := by simp [lastVotes]
    refine ⟨?_, fun x member a named => ?_⟩
    · rw [last]
      exact followed.congr closed (applyBlock_sameMemory opened applied)
    rcases List.mem_append.mp member with earlier_member | own
    · exact never x earlier_member a named
    · rw [List.mem_singleton.mp own]
      exact ((followed a).apart named).2

/-- In every regular run, bringing the race up to date leaves in it exactly the candidates, at the
speed of the votes they received, apart from genesis producers that never were candidates. -/
theorem race_mirrors_candidates {initialProducers : List Address} {blocks : List Applied}
    {block : Applied} {c m : Controller}
    (regular : Regular initialProducers blocks)
    (steady : Steady (lastVotes blocks) block.view.votes)
    (small : ∀ a received, candidateVotes block.view.votes a = some received →
      received.toNat < 2 ^ 63)
    (replayed : replay initialProducers blocks = some c)
    (opened : (openBlock block.lastBlockId block.view block.header).run
      { c with db := c.db.startUndoSession } = .ok () m) :
    ∀ a, ¬ (a ∈ genesisProducers initialProducers ∧
        ∀ x ∈ blocks ++ [block], candidateVotes x.view.votes a = none) →
      (m.db.producerVotes.find a).map (·.speed.toInt) =
        (candidateVotes block.view.votes a).map fun received => (received.toNat : ℤ) := by
  intro a excused
  obtain ⟨mirrors, never⟩ := mirrors_replay regular replayed
  have followed := mirrors.openBlock steady opened
  have free : a ∉ genesisProducers initialProducers := by
    -- A genesis producer that registers stops the chain, so none has.
    intro named
    refine excused ⟨named, fun x member => ?_⟩
    rcases List.mem_append.mp member with earlier_member | own
    · exact never x earlier_member a named
    · rw [List.mem_singleton.mp own]
      exact ((followed a).apart named).2
  have speed : (m.db.producerVotes.find a).map (·.speed) = candidateVotes block.view.votes a :=
    (followed a).raced free
  cases votes : candidateVotes block.view.votes a with
  | none =>
    rw [votes, Option.map_eq_none_iff] at speed
    simp [speed]
  | some received =>
    have bound := small a received votes
    obtain ⟨race, found, same⟩ := Option.map_eq_some_iff.mp (speed.trans votes)
    rw [found, Option.map_some, Option.map_some, same,
      BitVec.toInt_eq_toNat_of_lt (by omega)]

/-- A vote table in which one account stands for election, with or without a vote. -/
def oneCandidate (votes : List VoteOp) : Std.ExtTreeMap Address VoteInfo :=
  votesAfter (State.funded 50 10000000000000000000)
    ([.mortgage 500000000000000000 50,
      .candidateRegister shortName shortUrl 1] ++ votes)

/-- The votes of a candidate stand in an entry of the table. -/
theorem exists_of_candidateVotes {votes : Std.ExtTreeMap Address VoteInfo} {a : Address}
    {received : U64} (some_votes : candidateVotes votes a = some received) :
    ∃ entry ∈ votes.toList, entry.2.receivedVote = received := by
  unfold candidateVotes at some_votes
  split at some_votes
  · next info listed =>
    refine ⟨(a, info), Std.ExtTreeMap.mem_toList_iff_getElem?_eq_some.mpr listed, ?_⟩
    split at some_votes
    · exact Option.some.inj some_votes
    · cases some_votes
  · cases some_votes

/-- A first table without votes is steady. -/
theorem steady_empty {after : Std.ExtTreeMap Address VoteInfo}
    (zero : ∀ entry ∈ after.toList, entry.2.receivedVote = 0) : Steady ∅ after where
  entering a received _ some_votes := by
    obtain ⟨entry, member, rfl⟩ := exists_of_candidateVotes some_votes
    exact zero entry member
  staying a some_before := absurd some_before (by simp [candidateVotes])

/-- A run of one block without candidates is regular. -/
theorem regular_first : Regular [100] [.signed 100 1 1513580387 ∅] where
  steady earlier block later split := by
    rcases earlier with _ | ⟨first, rest⟩
    · obtain ⟨rfl, -⟩ := List.cons.inj split
      exact steady_empty (by simp [Applied.signed])
    · simp at split
  fit c block m db applies _ _ ends := by
    obtain ⟨earlier, later, split, -⟩ := applies
    rcases earlier with _ | ⟨first, rest⟩
    · obtain ⟨rfl, -⟩ := List.cons.inj split
      exact absurd ends (by decide)
    · simp at split

/-- A candidate without votes enters the race and stands still. -/
theorem race_mirrors_candidates_enter : ∃ c m,
    replay [100] [.signed 100 1 1513580387 ∅] = some c ∧
    (openBlock 0 { votes := oneCandidate [], powOps := [] } (.signed 100 2 1513580447)).run
      { c with db := c.db.startUndoSession } = .ok () m ∧
    (m.db.producerVotes.find 1).map (·.speed.toInt) = some 0 := by
  have evaluated : ((replay [100] [.signed 100 1 1513580387 ∅]).any fun c =>
      match (openBlock 0 { votes := oneCandidate [], powOps := [] }
        (.signed 100 2 1513580447)).run { c with db := c.db.startUndoSession } with
      | .error _ _ => false
      | .ok _ _ => true) = true := by
    decide +kernel
  have zero : ∀ entry ∈ (oneCandidate []).toList, entry.2.receivedVote = 0 := by decide +kernel
  have listed : candidateVotes (oneCandidate []) 1 = some 0 := by decide +kernel
  generalize oneCandidate [] = table at evaluated zero listed ⊢
  obtain ⟨c, replayed, checked⟩ := (Option.any_eq_true _ _).mp evaluated
  split at checked
  · cases checked
  · next u m opened =>
    have small : ∀ a received, candidateVotes table a = some received →
        received.toNat < 2 ^ 63 := by
      intro a received some_votes
      obtain ⟨entry, member, rfl⟩ := exists_of_candidateVotes some_votes
      rw [zero entry member]
      decide
    have mirrored := @race_mirrors_candidates [100] [.signed 100 1 1513580387 ∅]
      (.signed 100 2 1513580447 table) c m regular_first (steady_empty zero) small replayed
      opened 1 fun excused => absurd excused.1 (by decide)
    refine ⟨c, m, replayed, opened, mirrored.trans ?_⟩
    rw [Applied.signed, listed]
    rfl

/-- A candidate that is first seen with votes enters the race and stands still as well. -/
theorem first_votes_lost : ∃ c m,
    replay [100] [.signed 100 1 1513580387 ∅] = some c ∧
    (openBlock 0 { votes := oneCandidate [.vote 1 3 50], powOps := [] }
      (.signed 100 2 1513580447)).run { c with db := c.db.startUndoSession } = .ok () m ∧
    candidateVotes (oneCandidate [.vote 1 3 50]) 1 = some 3 ∧
    (m.db.producerVotes.find 1).map (·.speed) = some 0 := by
  have evaluated : ((replay [100] [.signed 100 1 1513580387 ∅]).any fun c =>
      match (openBlock 0 { votes := oneCandidate [.vote 1 3 50], powOps := [] }
        (.signed 100 2 1513580447)).run { c with db := c.db.startUndoSession } with
      | .error _ _ => false
      | .ok _ m => (m.db.producerVotes.find 1).map (·.speed) = some (0 : ShareType)) = true := by
    decide +kernel
  obtain ⟨c, replayed, checked⟩ := (Option.any_eq_true _ _).mp evaluated
  split at checked
  · cases checked
  · next u m opened =>
    exact ⟨c, m, replayed, opened, by decide +kernel, of_decide_eq_true checked⟩

end Controller

end Etiam
