import Etiam.Producer.Moves
import Etiam.Producer.Slots

/-! Hardfork votes: which of them can stop the chain. -/

namespace Etiam

open Exec Database

namespace Controller

/-- A vote that stops no block up to a time: for the known version, or for a later time. -/
def Harmless (latest : U32) (vote : U32 × U32) : Prop := vote.1 = 0 ∨ latest < vote.2

/-- What a producer is known to have voted for. -/
def hardforkVote (p : ProducerObject) : U32 × U32 := (p.hardforkVerVote, p.hardforkTimeVote)

/-- What a header votes for. -/
def headerVote (b : BlockHeader) : U32 × U32 := (b.hardforkVersion, b.hardforkTime)

/-- The next hardfork is harmless, and the known version is the current one. -/
def HarmlessNext (latest : U32) (g : GlobalPropertyObject) : Prop :=
  Harmless latest (g.nextHardfork, g.nextHardforkTime) ∧ g.currentHardforkVersion = 0

variable {latest : U32} {block : Applied}

theorem lasting_harmless (header : Harmless latest (headerVote block.header)) :
    Lasting block.header fun p => Harmless latest (hardforkVote p) where
  fresh _ := .inl rfl
  noted a before after noted harmless := by
    -- The vote was there before, or it is the header's.
    rcases noted.vote with same | new
    · rw [hardforkVote, same]
      exact harmless
    · rw [hardforkVote, new]
      exact header

theorem HarmlessNext.moves {s t : Database} (moves : Moves block s t)
    (start : HarmlessNext latest s.global) : HarmlessNext latest t.global := by
  rw [moves.global]
  exact start

theorem HarmlessNext.admits {ops : List PowOperation} {s t : Database} (admits : Admits ops s t)
    (start : HarmlessNext latest s.global) : HarmlessNext latest t.global := by
  rw [admits.global]
  exact start

theorem mem_of_majorityHardfork {votes : List (U32 × U32)} {vote : U32 × U32}
    (won : majorityHardfork votes = some vote) : vote ∈ votes := by
  have member := List.mem_of_find?_eq_some won
  rwa [List.mem_insertionSort] at member

theorem HarmlessNext.tally {producers : List ProducerObject} {g : GlobalPropertyObject}
    (votes : ∀ p ∈ producers, Harmless latest (hardforkVote p)) (start : HarmlessNext latest g) :
    HarmlessNext latest (tallyHardfork producers g) := by
  unfold tallyHardfork
  split
  · next version time won =>
    obtain ⟨p, member, same⟩ := List.mem_map.mp (mem_of_majorityHardfork won)
    exact ⟨same ▸ votes p member, start.2⟩
  · -- Without a majority, the next version is the current one.
    exact ⟨.inl start.2, start.2⟩

theorem HarmlessNext.setActive {g : GlobalPropertyObject} (start : HarmlessNext latest g)
    (schedule : List Address) : HarmlessNext latest (setActiveProducers schedule g) := by
  unfold setActiveProducers HarmlessNext
  dsimp only
  exact start

theorem HarmlessNext.choose {s t : Database}
    (header : Harmless latest (headerVote block.header))
    (chosen : (updateGlobalProperties block.header).run s = .ok () t)
    (votes : AllProducers (fun p => Harmless latest (hardforkVote p)) s)
    (start : HarmlessNext latest s.global) : HarmlessNext latest t.global := by
  obtain ⟨db', ran, outcome⟩ := updateGlobalProperties_cases block s
  rw [ran] at chosen
  cases chosen
  rcases outcome with moved | ⟨-, schedule, mid, producers, calculated, read, rfl⟩
  · exact start.moves moved
  · have moved : Moves block s mid := (Moves.calculateNextRound block.header).of_ok calculated
    have kept := (lasting_harmless header).moves moved votes
    have objects := (activeProducerObjects_eq_ok.mp read).2
    -- Every vote that is counted is the vote of a producer.
    have counted : ∀ p ∈ producers, Harmless latest (hardforkVote p) := by
      intro p member
      have listed : some p ∈ producers.map some := List.mem_map_of_mem member
      rw [← objects] at listed
      obtain ⟨a, -, found⟩ := List.mem_map.mp listed
      exact kept a p found
    exact ((HarmlessNext.moves moved start).tally counted).setActive schedule

theorem harmless_accept {c d : Controller} (header : Harmless latest (headerVote block.header))
    (votes : AllProducers (fun p => Harmless latest (hardforkVote p)) c.db)
    (next : HarmlessNext latest c.db.global) (accepted : c.accept block = some d) :
    AllProducers (fun p => Harmless latest (hardforkVote p)) d.db ∧
      HarmlessNext latest d.db.global := by
  obtain ⟨checked, queued, headed, chosen, signed, phases⟩ := accept_phases accepted
  have lasting := (lasting_harmless header).phases phases votes
  have headedNext : HarmlessNext latest headed.global :=
    ((HarmlessNext.moves phases.check next).admits phases.admitted).moves phases.follow
  have signedNext := (headedNext.choose header phases.choose lasting.1).moves phases.sign
  obtain ⟨newLast, -, settled⟩ := phases.settle
  refine ⟨lasting.2.2, ?_⟩
  rw [settled, global_settleDb]
  exact signedNext

theorem harmless_initializeChain {initialProducers : List Address} {c : Controller}
    (started : initializeChain initialProducers = some c) :
    AllProducers (fun p => Harmless latest (hardforkVote p)) c.db ∧
      HarmlessNext latest c.db.global := by
  refine ⟨fun a p found => ?_, ?_⟩
  · -- Nothing is noted of the producers that are there from the start.
    rw [(find_initializeChain started a).2] at found
    split at found
    · cases found
      exact .inl rfl
    · cases found
  · rw [global_initializeChain started]
    exact ⟨.inl rfl, rfl⟩

theorem harmless_replay {initialProducers : List Address} {blocks : List Applied} {c : Controller}
    (votes : ∀ block ∈ blocks, Harmless latest (headerVote block.header))
    (replayed : replay initialProducers blocks = some c) :
    AllProducers (fun p => Harmless latest (hardforkVote p)) c.db ∧
      HarmlessNext latest c.db.global := by
  -- The last block of the run keeps what the blocks before it have kept.
  induction blocks using List.reverseRecOn generalizing c with
  | nil =>
    rw [replay_nil] at replayed
    exact harmless_initializeChain replayed
  | append_singleton earlier block ih =>
    obtain ⟨m, before, accepted⟩ := replay_concat.mp replayed
    obtain ⟨stored, next⟩ := ih (fun b member => votes b (List.mem_append_left _ member)) before
    exact harmless_accept (votes block (by simp)) stored next accepted

section Avoids

theorem getProducer_avoids (a : Address) :
    Avoids .unknownHardfork (onProducers (Index.get a)) := by
  refine Avoids.zoom fun ix t => ?_
  cases found : ix.find a with
  | none =>
    rw [Index.run_get_none found]
    exact nofun
  | some producer =>
    rw [Index.run_get found]
    exact nofun

theorem modifyProducer_avoids (a : Address) (f : ProducerObject → ProducerObject) :
    Avoids .unknownHardfork (modifyProducer a f) := by
  refine Avoids.zoom fun ix t => ?_
  cases found : ix.find a with
  | none =>
    rw [Index.run_change_none found]
    exact nofun
  | some producer =>
    have changed : (Index.change a fun p => .ok (f p)).run ix =
        .ok () (ix.modify a (f producer)) := Index.run_change found rfl
    rw [changed]
    exact nofun

theorem update_avoids (speed : ShareType) (position now : UInt128) :
    Race.update speed position now ≠ .error .unknownHardfork := by
  unfold Race.update
  dsimp only
  split
  · exact nofun
  · exact nofun

theorem validateBlockHeader_avoids (b : BlockHeader) :
    Avoids .unknownHardfork (validateBlockHeader b) := by
  have read : Avoids .unknownHardfork (do
      let _ ← onProducers (Index.get b.producer) : DbM Unit) :=
    Avoids.bind (getProducer_avoids _) fun _ => Avoids.pure _
  have checked : Avoids .unknownHardfork (do
      let db ← get
      if db.getScheduledProducer (db.getSlotAtTime b.time) ≠ b.producer then
        throw .invalidProducer
      let _ ← onProducers (Index.get b.producer) : DbM Unit) :=
    Avoids.bind Avoids.get fun db =>
      Avoids.ite (Avoids.bind (Avoids.throw (by decide)) fun _ => read) read
  exact Avoids.ite (Avoids.bind (Avoids.throw (by decide)) fun _ => checked) checked

theorem processBlockHeader_avoids (b : BlockHeader) :
    Avoids .unknownHardfork (processBlockHeader b) := by
  unfold processBlockHeader
  refine Avoids.bind (getProducer_avoids _) fun producer => ?_
  have version : Avoids .unknownHardfork (do
      let db ← get
      if b.runningVersion < db.global.currentHardforkVersion then throw .invalidRunningVersion :
      DbM Unit) :=
    Avoids.bind Avoids.get fun db => Avoids.ite (Avoids.throw (by decide)) (Avoids.pure _)
  refine Avoids.ite (Avoids.bind (modifyProducer_avoids _ _) fun _ => ?_) ?_
  · exact Avoids.ite (Avoids.bind (modifyProducer_avoids _ _) fun _ => version) version
  · exact Avoids.ite (Avoids.bind (modifyProducer_avoids _ _) fun _ => version) version

theorem enlist_avoids (a : Address) : Avoids .unknownHardfork (enlist a) := by
  -- The account enters the race, and then nothing that can fail is left.
  refine Avoids.bind Avoids.get fun db => Avoids.bind (Avoids.zoom fun ix t => ?_) fun _ => ?_
  · intro failed
    cases lap : Race.startNewRaceLap db.currentRaceTime.value .start with
    | error e =>
      rw [lap, Index.run_create_error] at failed
      cases failed
      exact update_avoids _ _ _ lap
    | ok race =>
      rw [lap] at failed
      cases created : ix.emplace a race with
      | none =>
        rw [Index.run_create_taken created] at failed
        cases failed
      | some made =>
        rw [Index.run_create created] at failed
        cases failed
  · split
    · refine Avoids.zoom fun ix t => ?_
      cases created : ix.emplace a {} with
      | none =>
        rw [Index.run_create_taken created]
        exact nofun
      | some made =>
        rw [Index.run_create created]
        exact nofun
    · refine Avoids.ite (Avoids.bind (modifyProducer_avoids _ _) fun _ => ?_) (Avoids.pure _)
      exact fun _ _ => nofun

theorem followCandidate_avoids (a : Address) (info : VoteInfo) :
    Avoids .unknownHardfork (followCandidate a info) := by
  have keep : Avoids .unknownHardfork (remember a info.receivedVote) := fun _ _ => nofun
  unfold followCandidate
  refine Avoids.ite (Avoids.pure _) (Avoids.bind Avoids.get fun c => ?_)
  split
  · refine Avoids.ite (Avoids.pure _) (Avoids.bind (Avoids.zoom (Avoids.zoom fun ix t => ?_))
      fun _ => keep)
    intro failed
    cases found : ix.find a with
    | none =>
      rw [Index.run_change_none found] at failed
      cases failed
    | some race =>
      generalize changed : Race.updateVotes _ _ race = outcome at failed
      cases outcome with
      | error e =>
        rw [Index.run_change_error found changed] at failed
        cases failed
        exact update_avoids _ _ _ changed
      | ok after =>
        rw [Index.run_change found changed] at failed
        cases failed
  · exact Avoids.bind (Avoids.zoom (enlist_avoids a)) fun _ => keep

theorem updatePvomiPerblock_avoids (votes : Std.ExtTreeMap Address VoteInfo) :
    Avoids .unknownHardfork (updatePvomiPerblock votes) := by
  refine Avoids.bind (Avoids.forM fun entry _ => followCandidate_avoids entry.1 entry.2) fun _ => ?_
  refine Avoids.bind Avoids.get fun c => Avoids.forM fun a _ => ?_
  refine Avoids.bind (Avoids.zoom (Avoids.zoom fun ix t => ?_)) fun _ => fun _ _ => nofun
  cases found : ix.find a with
  | none =>
    rw [Index.run_delete_none found]
    exact nofun
  | some race =>
    rw [Index.run_delete found]
    exact nofun

theorem openBlock_avoids (lastBlockId : Hash) (view : ParentView) (b : BlockHeader) :
    Avoids .unknownHardfork (openBlock lastBlockId view b) := by
  refine Avoids.bind (Avoids.zoom (validateBlockHeader_avoids b)) fun _ => ?_
  refine Avoids.bind (Avoids.zoom (processBlockHeader_avoids b)) fun _ => ?_
  refine Avoids.bind (Avoids.zoom fun db t => ?_) fun _ => updatePvomiPerblock_avoids view.votes
  obtain ⟨db', ran, -⟩ := updatePow_admits lastBlockId view.powOps db
  rw [ran]
  exact nofun

theorem updateGlobalDynamicData_avoids (b : BlockHeader) :
    Avoids .unknownHardfork (updateGlobalDynamicData b) := by
  refine Avoids.bind Avoids.get fun db => Avoids.bind (Avoids.forM fun i _ => ?_) fun _ =>
    fun _ _ => nofun
  refine Avoids.bind Avoids.get fun db => Avoids.ite ?_ (Avoids.pure _)
  refine Avoids.bind (getProducer_avoids _) fun _ => ?_
  exact Avoids.ite (modifyProducer_avoids _ _) (Avoids.pure _)

theorem updateLastIrreversibleBlock_avoids :
    Avoids .unknownHardfork updateLastIrreversibleBlock := by
  unfold updateLastIrreversibleBlock
  have read : ∀ names, Avoids .unknownHardfork (activeProducerObjects names) :=
    fun names => Avoids.mapM fun name _ => getProducer_avoids name
  refine Avoids.bind (Avoids.zoom (Avoids.bind Avoids.get fun db => read _)) fun producers => ?_
  split
  · exact Avoids.throw (by decide)
  · refine Avoids.bind Avoids.get fun c => ?_
    dsimp only
    split
    · exact Avoids.bind (Avoids.zoom fun _ _ => nofun) fun _ =>
        Avoids.bind (fun _ _ => nofun) fun _ => Avoids.zoom fun _ _ => nofun
    · exact Avoids.zoom fun _ _ => nofun

end Avoids

/-- A block that is refused for an unknown hardfork is refused in its last step. -/
theorem unknownHardfork_cases {c t : Controller}
    (failed : (applyBlock block.lastBlockId block.view block.header).run c =
      .error .unknownHardfork t) :
    ∃ m headed chosen after,
      (openBlock block.lastBlockId block.view block.header).run c = .ok () m ∧
      (updateGlobalDynamicData block.header).run m.db = .ok () headed ∧
      (updateGlobalProperties block.header).run headed = .ok () chosen ∧
      after.global = chosen.global ∧ SameClock chosen after ∧
      0 < after.global.nextHardfork ∧ after.global.nextHardforkTime ≤ after.dynamic.time := by
  obtain ⟨_, m, opened, rest⟩ := (openBlock_avoids _ _ _).bind_eq_error failed
  obtain ⟨_, n, advanced, rest⟩ :=
    (Avoids.zoom (updateGlobalDynamicData_avoids block.header)).bind_eq_error rest
  obtain ⟨headed, headedRan, rfl⟩ := zoom_eq_ok.mp advanced
  have round : Avoids .unknownHardfork (updateGlobalProperties block.header) := by
    intro s t
    obtain ⟨db', ran, -⟩ := updateGlobalProperties_cases block s
    rw [ran]
    exact nofun
  obtain ⟨_, o, chose, rest⟩ := (Avoids.zoom round).bind_eq_error rest
  obtain ⟨chosen, choice, rfl⟩ := zoom_eq_ok.mp chose
  have signs : Avoids .unknownHardfork (updateSigningProducer block.header) :=
    Avoids.bind Avoids.get fun _ => modifyProducer_avoids _ _
  obtain ⟨_, p, signed, rest⟩ := (Avoids.zoom signs).bind_eq_error rest
  obtain ⟨signedDb, signedRan, rfl⟩ := zoom_eq_ok.mp signed
  obtain ⟨_, q, confirmed, rest⟩ := updateLastIrreversibleBlock_avoids.bind_eq_error rest
  -- What is left is the check for hardforks, which changes nothing.
  have global : q.db.global = chosen.global := by
    have moved : Moves block chosen signedDb := Moves.updateSigningProducer.of_ok signedRan
    obtain ⟨newLast, -, rfl⟩ := updateLastIrreversibleBlock_eq_ok.mp confirmed
    rw [db_settle]
    exact (global_settleDb newLast signedDb).trans moved.global
  have clock : SameClock chosen q.db := by
    have first : SameClock chosen signedDb :=
      (raceFrame_sameClock.updateSigningProducer block.header).of_ok signedRan
    have second :=
      (raceFrame_sameClock.notes.updateLastIrreversibleBlock fun _ _ => rfl).of_ok confirmed
    exact Eq.trans second first
  refine ⟨m, headed, chosen, q.db, opened, headedRan, choice, global, clock, ?_⟩
  by_contra fine
  have returned : processHardforks.run q.db = .ok () q.db := by
    rw [processHardforks, processHardforksLoop_succ, run_get_bind, if_neg fine]
    rfl
  have ended : (onDb processHardforks).run q = .ok () { q with db := q.db } := zoom_ok returned
  rw [ended] at rest
  cases rest

/-- In a run whose headers vote for the known version or for times after the next block, the next
block is not refused for a hardfork. -/
theorem no_unknownHardfork {initialProducers : List Address} {blocks : List Applied}
    {c : Controller} (replayed : replay initialProducers blocks = some c) (next : Applied)
    (votes : ∀ block ∈ blocks ++ [next],
      Harmless next.header.time (headerVote block.header)) (t : Controller) :
    (applyBlock next.lastBlockId next.view next.header).run
      { c with db := c.db.startUndoSession } ≠ .error .unknownHardfork t := by
  intro failed
  have own := votes next (by simp)
  obtain ⟨stored, begun⟩ :=
    harmless_replay (fun b member => votes b (List.mem_append_left _ member)) replayed
  obtain ⟨m, headed, chosen, after, opened, headedRan, choice, global, clock, stops, due⟩ :=
    unknownHardfork_cases failed
  obtain ⟨checked, queued, check, admitted, follow⟩ := openBlock_phases opened
  -- The votes are harmless before the round is chosen, so the next hardfork is after it.
  have headMoves : Moves next m.db headed := Moves.updateGlobalDynamicData.of_ok headedRan
  have lasting := lasting_harmless own
  have headedVotes := lasting.moves headMoves (lasting.moves follow
    (lasting.admits admitted (lasting.moves check stored)))
  have headedNext : HarmlessNext next.header.time headed.global :=
    (((HarmlessNext.moves check begun).admits admitted).moves follow).moves headMoves
  have final := headedNext.choose own choice headedVotes
  rw [← global] at final
  -- The time that the check compares with is the time of the block.
  have time : after.dynamic.time = next.header.time := by
    have round : SameClock headed chosen := (raceFrame_sameClock.notes.updateGlobalProperties
      raceFrame_sameClock.tracks.advanceRace next.header).of_ok choice
    have set := clock_updateGlobalDynamicData headedRan
    exact congrArg (·.2.1) ((Eq.trans clock round).trans set)
  rcases final.1 with known | later
  · have none_next : after.global.nextHardfork = 0 := known
    rw [none_next] at stops
    exact absurd stops (by decide)
  · rw [time] at due
    exact absurd later (BitVec.not_lt.mpr due)

/-- A first block that asks for a hardfork in the far future. -/
def patientBlock : Applied where
  lastBlockId := 0
  view := { votes := ∅, powOps := [] }
  header := { BlockHeader.signed 100 1 1513580387 with
    hardforkVersion := 1, hardforkTime := 4294967295 }

/-- The block after one that asks for a hardfork in the far future is not refused for it. -/
theorem no_unknownHardfork_patient : ∃ c, replay [100] [patientBlock] = some c ∧
    ∀ t, (applyBlock (soleBlock 2 1513580445).lastBlockId (soleBlock 2 1513580445).view
      (soleBlock 2 1513580445).header).run { c with db := c.db.startUndoSession } ≠
        .error .unknownHardfork t := by
  have accepts : (replay [100] [patientBlock]).isSome = true := by decide +kernel
  obtain ⟨c, replayed⟩ := Option.isSome_iff_exists.mp accepts
  refine ⟨c, replayed, no_unknownHardfork replayed (soleBlock 2 1513580445) fun block member => ?_⟩
  simp only [List.cons_append, List.nil_append, List.mem_cons, List.not_mem_nil, or_false] at member
  rcases member with rfl | rfl
  · exact .inr (by decide)
  · exact .inl rfl

/-- The first block of a producer that votes for a hardfork nobody knows. -/
def faultyBlock : Applied where
  lastBlockId := 0
  view := { votes := ∅, powOps := [] }
  header := { BlockHeader.signed 200 1 1513580327 with hardforkVersion := 1 }

/-- A block of another producer, which votes for the current version. -/
def steadyBlock (number : ℕ) : Applied := .signed 100 number (1513580385 + 63 * (number - 2)) ∅

/-- The rest of the round, made by the producer that is not at fault. -/
def steadyBlocks : List Applied := (List.range 19).map fun i => steadyBlock (i + 2)

/-- One vote of one of two producers stops the chain at the end of the round. -/
theorem one_vote_stops_chain : ∃ c t, replay [100, 200] (faultyBlock :: steadyBlocks) = some c ∧
    (∀ block ∈ faultyBlock :: steadyBlocks, block.header.producer ≠ 200 →
      block.header.hardforkVersion = 0) ∧
    2 ≤ (c.db.global.activeProducers.toList.filter (· ≠ 0)).length ∧
    (steadyBlock 21).header.producer = 100 ∧ (steadyBlock 21).header.verifySign = true ∧
    c.db.getScheduledProducer (c.db.getSlotAtTime (steadyBlock 21).header.time) = (100 : Address) ∧
    (applyBlock (steadyBlock 21).lastBlockId (steadyBlock 21).view (steadyBlock 21).header).run
      { c with db := c.db.startUndoSession } = .error .unknownHardfork t := by
  have evaluated : ((replay [100, 200] (faultyBlock :: steadyBlocks)).any fun c =>
      decide (2 ≤ (c.db.global.activeProducers.toList.filter (· ≠ 0)).length ∧
        c.db.getScheduledProducer (c.db.getSlotAtTime (steadyBlock 21).header.time) =
          (100 : Address)) &&
      raised ((applyBlock (steadyBlock 21).lastBlockId (steadyBlock 21).view
        (steadyBlock 21).header).run { c with db := c.db.startUndoSession }) ==
          some .unknownHardfork) = true := by decide +kernel
  obtain ⟨c, replayed, checked⟩ := (Option.any_eq_true _ _).mp evaluated
  rw [Bool.and_eq_true, decide_eq_true_eq, beq_iff_eq] at checked
  obtain ⟨⟨two, turn⟩, refused⟩ := checked
  obtain ⟨t, failed⟩ := raised_eq_some.mp refused
  exact ⟨c, t, replayed, by decide, two, rfl, rfl, turn, failed⟩

end Controller

end Etiam
