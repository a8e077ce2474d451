import Etiam.Producer.Frames
import Etiam.Producer.PowQueue

/-! The moves that applying a block is made of, from which invariants of the database are derived.
-/

namespace Etiam

open Exec Database
open Controller (Applied)

namespace Index

/-- An account is queued when its producer has a place in the queue. -/
def Queued (ix : Index Address ProducerObject) (a : Address) : Prop :=
  ∃ producer, ix.find a = some producer ∧ producer.powWorker ≠ 0

/-- The entries are the stored values. -/
theorem mem_toList_iff {V : Type} {ix : Index Address V} {a : Address} {stored : Stored V} :
    (a, stored) ∈ ix.entries.toList ↔ ix.entries[a]? = some stored :=
  Std.ExtTreeMap.mem_toList_iff_getElem?_eq_some

/-- The queue has the queued accounts. -/
theorem mem_byPow {ix : Index Address ProducerObject} {a : Address} :
    a ∈ ix.byPow ↔ ix.Queued a := by
  -- Sorting keeps the members, and the filter is the condition.
  unfold byPow Queued find
  simp only [List.mem_map, List.mem_insertionSort, List.mem_filter, decide_eq_true_eq, Prod.exists,
    exists_and_right, exists_eq_right, mem_toList_iff, Option.map_eq_some_iff]
  constructor
  · rintro ⟨stored, found, queued⟩
    exact ⟨stored.value, ⟨stored, found, rfl⟩, queued⟩
  · rintro ⟨_, ⟨stored, found, rfl⟩, queued⟩
    exact ⟨stored, found, queued⟩

end Index

/-- What a block may note about a producer, apart from its place in the queue. -/
structure Noted (b : BlockHeader) (a : Address) (before after : ProducerObject) : Prop where
  vote : (after.hardforkVerVote, after.hardforkTimeVote) =
      (before.hardforkVerVote, before.hardforkTimeVote) ∨
    (after.hardforkVerVote, after.hardforkTimeVote) = (b.hardforkVersion, b.hardforkTime)
  confirmed : after.lastConfirmedBlockNum = before.lastConfirmedBlockNum ∨
    (a = b.producer ∧ after.lastConfirmedBlockNum = b.num)

/-- The counters after a worker has left the queue. -/
def countLeave (d : DynamicGlobalPropertyObject) : DynamicGlobalPropertyObject :=
  { d with numPowWitnesses := d.numPowWitnesses - 1 }

/-- An account is a candidate in the vote table that a block follows. -/
def Controller.Applied.Candidate (block : Applied) (a : Address) : Prop :=
  ∃ info, block.view.votes[a]? = some info ∧ info.isCandidate = true

/-- One move of applying a block. Admissions to the queue, the choice of a round and the last
irreversible block are kept apart. -/
inductive Move (block : Applied) : Database → Database → Prop
  | note {db : Database} {a : Address} {before after : ProducerObject}
    (found : db.producers.find a = some before) (place : after.powWorker = before.powWorker)
    (noted : Noted block.header a before after) :
    Move block db { db with producers := db.producers.modify a after }
  | leave {db : Database} {a : Address} {producer : ProducerObject}
    (found : db.producers.find a = some producer) (queued : producer.powWorker ≠ 0) :
    Move block db { db with
      producers := db.producers.modify a { producer with powWorker := 0 }
      dynamicGlobalProperties := db.dynamicGlobalProperties.modify countLeave }
  | enter {db : Database} {a : Address} {race : Race} {made : Index Address Race}
    {producer : ProducerObject} (candidate : block.Candidate a)
    (created : db.producerVotes.emplace a race = some made)
    (found : db.producers.find a = some producer) (idle : producer.powWorker = 0) :
    Move block db { db with producerVotes := made }
  | enterNew {db : Database} {a : Address} {race : Race} {made : Index Address Race}
    {producers : Index Address ProducerObject} (candidate : block.Candidate a)
    (created : db.producerVotes.emplace a race = some made)
    (added : db.producers.emplace a {} = some producers) :
    Move block db { db with producerVotes := made, producers }
  | enterQueued {db : Database} {a : Address} {race : Race} {made : Index Address Race}
    {producer : ProducerObject} (candidate : block.Candidate a)
    (created : db.producerVotes.emplace a race = some made)
    (found : db.producers.find a = some producer) (queued : producer.powWorker ≠ 0) :
    Move block db { db with
      producerVotes := made
      producers := db.producers.modify a { producer with powWorker := 0 }
      dynamicGlobalProperties := db.dynamicGlobalProperties.modify countLeave }
  | change {db : Database} {a : Address} {race : Race}
    (found : db.producerVotes.find a = some race) (after : Race) :
    Move block db { db with producerVotes := db.producerVotes.modify a after }
  | lose {db : Database} (a : Address) :
    Move block db { db with producerVotes := db.producerVotes.lose a }
  | remove {db : Database} (a : Address) :
    Move block db { db with producerVotes := db.producerVotes.remove a }
  | raceTime {db : Database} (now : UInt128) :
    Move block db { db with currentRaceTime := db.currentRaceTime.modify fun _ => now }
  | head {db : Database} (missed : U32) :
    Move block db { db with
      dynamicGlobalProperties := db.dynamicGlobalProperties.modify
        (Controller.setHead block.header missed) }

namespace Move

variable {block : Applied} {s t : Database}

/-- A move leaves the global data. -/
theorem global (move : Move block s t) : t.global = s.global := by
  cases move <;> rfl

/-- A producer after a move is new, or it was there before with nothing more than notes added and
its place in the queue kept or given up. -/
theorem producer (move : Move block s t) {a : Address} {after : ProducerObject}
    (found : t.producers.find a = some after) :
    after = {} ∨ ∃ before, s.producers.find a = some before ∧
      Noted block.header a before after ∧
      (after.powWorker = before.powWorker ∨ after.powWorker = 0) := by
  -- Most moves leave the producers alone.
  have same : ∀ p, Noted block.header a p p := fun p => ⟨.inl rfl, .inl rfl⟩
  cases move with
  | note was place noted =>
    rw [Index.find_modify was] at found
    split at found
    · next equal =>
      cases found
      exact .inr ⟨_, equal ▸ was, equal ▸ noted, .inl place⟩
    · exact .inr ⟨after, found, same after, .inl rfl⟩
  | leave was queued | enterQueued _ created was queued =>
    rw [Index.find_modify was] at found
    split at found
    · next equal =>
      cases found
      subst equal
      exact .inr ⟨_, was, ⟨.inl rfl, .inl rfl⟩, .inr rfl⟩
    · exact .inr ⟨after, found, same after, .inl rfl⟩
  | enterNew _ created added =>
    rw [Index.find_emplace added] at found
    split at found
    · cases found
      exact .inl rfl
    · exact .inr ⟨after, found, same after, .inl rfl⟩
  | enter | change | lose | remove | raceTime | head =>
    exact .inr ⟨after, found, same after, .inl rfl⟩

end Move

/-- Any number of moves. -/
def Moves (block : Applied) : Database → Database → Prop := Relation.ReflTransGen (Move block)

namespace Moves

open WriteFrame (Lifted)

variable {block : Applied}

/-- No moves are moves. -/
theorem refl (db : Database) : Moves block db db := Relation.ReflTransGen.refl

/-- Moves follow moves. -/
theorem trans (r s t : Database) (first : Moves block r s) (second : Moves block s t) :
    Moves block r t :=
  Relation.ReflTransGen.trans first second

/-- What writes nothing makes no move. -/
theorem reads : ReadFrame (Moves block) := ⟨refl, trans⟩

variable {s t : Database} {a : Address}

/-- One move is moves. -/
theorem single (move : Move block s t) : Moves block s t :=
  Relation.ReflTransGen.single move

/-- Moves keep what every move keeps. -/
theorem keeps {I : Database → Prop} (move : ∀ s t, Move block s t → I s → I t)
    (moves : Moves block s t) (start : I s) : I t := by
  induction moves with
  | refl => exact start
  | tail _ last ih => exact move _ _ last ih

/-- They leave the global data. -/
theorem global (moves : Moves block s t) : t.global = s.global :=
  keeps (I := fun db => db.global = s.global)
    (fun _ _ move same => move.global.trans same) moves rfl

/-- A note on a producer is a move. -/
theorem modifyProducer {f : ProducerObject → ProducerObject}
    (place : ∀ producer, (f producer).powWorker = producer.powWorker)
    (noted : ∀ producer, Noted block.header a producer (f producer)) :
    Within (Moves block) (Database.modifyProducer a f) := by
  -- The producer is there or the change fails.
  refine Within.zoom fun db => ?_
  cases found : db.producers.find a with
  | none =>
    rw [Index.run_change_none found]
    exact refl db
  | some producer =>
    have changed : (Index.change a fun p => .ok (f p)).run db.producers =
        .ok () (db.producers.modify a (f producer)) := Index.run_change found rfl
    rw [changed]
    exact single (.note found (place producer) (noted producer))

/-- A change of a racer is a move. -/
theorem changeVotes (a : Address) (f : Race → Except Failure Race) :
    Within (Moves block) (onVotes (Index.change a f)) := by
  refine Within.zoom fun db => ?_
  cases found : db.producerVotes.find a with
  | none =>
    rw [Index.run_change_none found]
    exact refl db
  | some race =>
    cases made : f race with
    | error e =>
      rw [Index.run_change_error found made]
      exact single (.lose a)
    | ok after =>
      rw [Index.run_change found made]
      exact single (.change found after)

/-- So is a new race time. -/
theorem setRaceTime (now : UInt128) : Within (Moves block) (Database.setRaceTime now) :=
  fun _ => single (.raceTime now)

/-- And leaving the queue. -/
theorem leavePow {db : Database} (queued : db.producers.Queued a) :
    ∃ db', (Schedule.leavePow a).run db = .ok () db' ∧ Move block db db' := by
  obtain ⟨producer, found, place⟩ := queued
  have changed : (Database.modifyProducer a fun p => { p with powWorker := 0 }).run db =
      .ok () { db with producers := db.producers.modify a { producer with powWorker := 0 } } :=
    zoom_ok (Index.run_change found rfl)
  exact ⟨_, bind_ok changed, .leave found place⟩

/-- Checking a header makes moves. -/
theorem processBlockHeader : Within (Moves block) (Controller.processBlockHeader block.header) := by
  -- Both changes are what the header says of its producer.
  unfold Controller.processBlockHeader
  refine reads.bind (reads.getProducer _) fun producer => ?_
  refine reads.optional (modifyProducer (fun _ => rfl) fun _ => ⟨.inl rfl, .inl rfl⟩) fun _ => ?_
  refine reads.optional (modifyProducer (fun _ => rfl) fun _ => ⟨.inr rfl, .inl rfl⟩) fun _ => ?_
  exact reads.get_bind fun db => WriteFrame.ite (reads.throw _) (reads.pure _)

/-- Enlisting a candidate is one move. -/
theorem enlist (candidate : block.Candidate a) :
    Within (Moves block) (Controller.enlist a) := by
  intro db
  unfold Controller.enlist
  rw [run_get_bind]
  cases lap : Race.startNewRaceLap db.currentRaceTime.value .start with
  | error e =>
    have failed : (onVotes (Index.create a (.error e))).run db = .error e db :=
      zoom_error Index.run_create_error
    rw [bind_error failed]
    exact refl db
  | ok race =>
    cases created : db.producerVotes.emplace a race with
    | none =>
      have failed : (onVotes (Index.create a (.ok race))).run db = .error .logicError db :=
        zoom_error (Index.run_create_taken created)
      rw [bind_error failed]
      exact refl db
    | some made =>
      have entered : (onVotes (Index.create a (.ok race))).run db =
          .ok () { db with producerVotes := made } := zoom_ok (Index.run_create created)
      rw [bind_ok entered]
      -- What else is to do depends on the producer of the account.
      cases found : db.producers.find a with
      | none =>
        obtain ⟨producers, added⟩ := (Index.emplace_eq_some_iff db.producers a {}).mpr found
        have ran : (onProducers (Index.create a (.ok {}))).run { db with producerVotes := made } =
            .ok () { db with producerVotes := made, producers } :=
          zoom_ok (Index.run_create added)
        dsimp only
        rw [ran]
        exact single (.enterNew candidate created added)
      | some producer =>
        dsimp only
        by_cases idle : producer.powWorker = 0
        · rw [if_neg (not_not.mpr idle)]
          exact single (.enter candidate created found idle)
        · rw [if_pos idle]
          have changed : (Database.modifyProducer a fun p => { p with powWorker := 0 }).run
              { db with producerVotes := made } = .ok () { db with
                producerVotes := made
                producers := db.producers.modify a { producer with powWorker := 0 } } :=
            zoom_ok (Index.run_change found rfl)
          rw [Schedule.leavePow, bind_ok changed]
          exact single (.enterQueued candidate created found idle)

/-- Leaving the race is a move. -/
theorem deleteVotes (a : Address) : Within (Moves block) (onVotes (Index.delete a)) := by
  refine Within.zoom fun db => ?_
  cases found : db.producerVotes.find a with
  | none =>
    rw [Index.run_delete_none found]
    exact refl db
  | some race =>
    rw [Index.run_delete found]
    exact single (.remove a)

/-- Following the votes makes moves. -/
theorem updatePvomiPerblock :
    Within (Lifted (Moves block)) (Controller.updatePvomiPerblock block.view.votes) :=
  reads.updatePvomiPerblock (fun entry member => reads.followCandidate (changeVotes entry.1)
    fun stands => enlist
      ⟨entry.2, Std.ExtTreeMap.mem_toList_iff_getElem?_eq_some.mp member, stands⟩) deleteVotes

/-- A new head is a move after the missed slots are counted. -/
theorem updateGlobalDynamicData :
    Within (Moves block) (Controller.updateGlobalDynamicData block.header) := by
  refine reads.get_bind fun db => reads.bind (reads.countMissed (fun a => ?_) _ _) fun _ =>
    fun _ => single (.head _)
  exact modifyProducer (fun _ => rfl) fun _ => ⟨.inl rfl, .inl rfl⟩

/-- Dropping surplus workers makes moves. -/
theorem dropSurplusPow : Within (Moves block) Schedule.dropSurplusPow := by
  unfold Schedule.dropSurplusPow
  refine Within.get_bind fun db => ?_
  split
  · cases first : db.producers.byPow.head? with
    | none => exact refl db
    | some owner =>
      -- The first of the queue is queued.
      obtain ⟨db', ran, move⟩ := leavePow (Index.mem_byPow.mp (List.mem_of_mem_head? first))
      dsimp only
      rw [ran]
      exact single move
  · exact refl db

/-- Taking workers off their queue makes moves. -/
theorem takePow (fuel places : ℕ) (processed upcoming : List Address) (db : Database)
    (queued : ∀ a ∈ upcoming, db.producers.Queued a) :
    Moves block db (final ((Schedule.takePow fuel places processed upcoming).run db)) := by
  induction fuel generalizing places processed upcoming db with
  | zero => exact refl db
  | succ fuel ih =>
    rcases places with _ | places
    · exact refl db
    · rcases upcoming with _ | ⟨owner, rest⟩
      · exact refl db
      · unfold Schedule.takePow
        split
        · exact ih _ _ _ db fun a member => queued a (List.mem_cons_of_mem owner member)
        · -- After the owner has left, the loop goes on with the queue as it is then.
          obtain ⟨db', ran, move⟩ := @leavePow block owner db (queued owner List.mem_cons_self)
          have further : ∀ places processed, Moves block db
              (final ((Schedule.takePow fuel places processed db'.producers.byPow).run db')) :=
            fun places processed => trans _ _ _ (single move)
              (ih places processed _ db' fun a member => Index.mem_byPow.mp member)
          rw [bind_ok ran, run_get_bind]
          split
          · rw [final_bind_pure]
            exact further _ _
          · exact further _ _

/-- So does filling a round. -/
theorem fillRound (selected : List Address) :
    Within (Moves block) (Schedule.fillRound selected) := by
  refine reads.bind dropSurplusPow fun _ => Within.get_bind fun db => ?_
  rw [final_bind_pure]
  exact takePow _ _ _ _ db fun a member => Index.mem_byPow.mp member

/-- And choosing one. -/
theorem calculateNextRound (b : BlockHeader) :
    Within (Moves block) (Controller.calculateNextRound b) :=
  reads.calculateNextRound fillRound
    (reads.advanceRace (fun a _ => changeVotes a _) setRaceTime) b

/-- Crediting the signer is a move. -/
theorem updateSigningProducer :
    Within (Moves block) (Controller.updateSigningProducer block.header) :=
  reads.get_bind fun _ => modifyProducer (fun _ => rfl) fun _ => ⟨.inl rfl, .inr ⟨rfl, rfl⟩⟩

end Moves

/-- Some of the operations admitted their workers to the queue, one after another. -/
inductive Admits : List PowOperation → Database → Database → Prop
  | done (db : Database) : Admits [] db db
  | pass {op : PowOperation} {rest : List PowOperation} {db db' : Database}
    (others : Admits rest db db') : Admits (op :: rest) db db'
  | join {op : PowOperation} {rest : List PowOperation} {db mid db' : Database}
    (first : Controller.Joins op.worker db mid) (others : Admits rest mid db') :
    Admits (op :: rest) db db'

/-- Admissions leave the global data. -/
theorem Admits.global {ops : List PowOperation} {s t : Database} (admits : Admits ops s t) :
    t.global = s.global := by
  induction admits with
  | done => rfl
  | pass _ ih => exact ih
  | join first _ ih =>
    rw [ih]
    cases first <;> rfl

namespace Controller

/-- The operations of a block admit some of their workers. -/
theorem forM_admitWorker_admits (lastBlockId target : Hash) (ops : List PowOperation)
    (db : Database) : ∃ db', (ops.forM (admitWorker lastBlockId target)).run db = .ok () db' ∧
      Admits ops db db' := by
  -- Each operation is eligible when its turn comes, or is passed over.
  induction ops generalizing db with
  | nil => exact ⟨db, rfl, .done db⟩
  | cons op rest ih =>
    rw [forM_cons]
    by_cases eligible : Eligible lastBlockId target db op
    · obtain ⟨mid, ran, joined⟩ := admitWorker_eligible eligible
      obtain ⟨db', others, admits⟩ := ih mid
      exact ⟨db', (bind_ok ran).trans others, .join joined admits⟩
    · obtain ⟨db', others, admits⟩ := ih db
      exact ⟨db', (bind_ok (admitWorker_passed eligible)).trans others, .pass admits⟩

/-- So does the update of the queue. -/
theorem updatePow_admits (lastBlockId : Hash) (ops : List PowOperation) (db : Database) :
    ∃ db', (updatePow lastBlockId ops).run db = .ok () db' ∧ Admits ops db db' := by
  unfold updatePow
  rw [run_get_bind]
  exact forM_admitWorker_admits lastBlockId (getPowTarget db) ops db

/-- The state of hardforks after the votes of producers are counted. -/
def tallyHardfork (producers : List ProducerObject) (g : GlobalPropertyObject) :
    GlobalPropertyObject :=
  match majorityHardfork (producers.map fun p => (p.hardforkVerVote, p.hardforkTimeVote)) with
  | some (version, time) => { g with nextHardfork := version, nextHardforkTime := time }
  | none => { g with nextHardfork := g.currentHardforkVersion }

/-- A new round is chosen: the race and the queue move, votes are counted, producers are set. -/
structure NewRound (b : BlockHeader) (before after : Database) : Prop where
  ends : b.num.toNat % Config.totalProducersPerRound = 0
  turns : ∃ schedule mid producers,
    (calculateNextRound b).run before = .ok schedule mid ∧
    (activeProducerObjects mid.global.activeProducers.toList).run mid = .ok producers mid ∧
    after = { mid with
      globalProperties := (mid.globalProperties.modify (tallyHardfork producers)).modify
        (setActiveProducers schedule) }

/-- Reading the producers changes nothing. -/
theorem run_activeProducerObjects (names : List Address) (db : Database) :
    final ((activeProducerObjects names).run db) = db :=
  Within.mapM (R := fun s t => t = s) (fun _ => rfl) (fun _ _ _ first second => second.trans first)
    (fun name _ => Within.zoom fun s => by rw [Index.final_get]) db

/-- It returns exactly when every producer is there. -/
theorem activeProducerObjects_eq_ok {names : List Address} {db db' : Database}
    {producers : List ProducerObject} :
    (activeProducerObjects names).run db = .ok producers db' ↔
      db' = db ∧ (names.filter (· ≠ 0)).map db.producers.find = producers.map some := by
  unfold activeProducerObjects
  generalize names.filter (· ≠ 0) = members
  -- The loop reads one object after another and changes nothing.
  induction members generalizing producers with
  | nil =>
    constructor
    · intro read
      cases read
      exact ⟨rfl, rfl⟩
    · rintro ⟨rfl, same⟩
      rw [List.map_nil, eq_comm, List.map_eq_nil_iff] at same
      subst same
      rfl
  | cons a rest ih =>
    rw [List.mapM_cons, List.map_cons]
    cases found : db.producers.find a with
    | none =>
      have failed : (onProducers (Index.get a)).run db = .error .outOfRange db :=
        zoom_error (Index.run_get_none found)
      rw [bind_error failed]
      constructor
      · exact nofun
      · rintro ⟨-, same⟩
        cases producers with
        | nil => cases same
        | cons p others => cases same
    | some producer =>
      have read : (onProducers (Index.get a)).run db = .ok producer db :=
        zoom_ok (Index.run_get found)
      rw [bind_ok read, bind_eq_ok]
      constructor
      · rintro ⟨others, mid, readRest, made⟩
        cases made
        obtain ⟨same, objects⟩ := ih.mp readRest
        exact ⟨same, by rw [objects, List.map_cons]⟩
      · rintro ⟨rfl, same⟩
        cases producers with
        | nil => cases same
        | cons p others =>
          simp only [List.map_cons, List.cons.injEq, Option.some.injEq] at same
          obtain ⟨rfl, objects⟩ := same
          exact ⟨others, db', ih.mpr ⟨rfl, objects⟩, rfl⟩

/-- Updating the round always returns, with the next round or with moves alone. -/
theorem updateGlobalProperties_cases (block : Applied) (db : Database) :
    ∃ db', (updateGlobalProperties block.header).run db = .ok () db' ∧
      (Moves block db db' ∨ NewRound block.header db db') := by
  unfold updateGlobalProperties
  split
  · next ends =>
    have chosen := @Moves.calculateNextRound block block.header db
    cases ran : (calculateNextRound block.header).run db with
    | error e mid =>
      rw [ran] at chosen
      exact ⟨mid, tryCatch_error (bind_error ran), .inl chosen⟩
    | ok schedule mid =>
      rw [ran] at chosen
      have same := run_activeProducerObjects mid.global.activeProducers.toList mid
      cases read : (activeProducerObjects mid.global.activeProducers.toList).run mid with
      | error e last =>
        -- A producer of the round that is not there ends the attempt.
        have same : last = mid := by rwa [read] at same
        rw [same] at read
        have failed : updateHardforkVotes.run mid = .error e mid := by
          unfold updateHardforkVotes
          rw [run_get_bind, bind_error read]
        exact ⟨mid, tryCatch_error ((bind_ok ran).trans (bind_error failed)), .inl chosen⟩
      | ok producers last =>
        have same : last = mid := by rwa [read] at same
        rw [same] at read
        have tallied : updateHardforkVotes.run mid = .ok () { mid with
            globalProperties := mid.globalProperties.modify (tallyHardfork producers) } := by
          unfold updateHardforkVotes
          rw [run_get_bind, bind_ok read]
          unfold tallyHardfork
          cases majorityHardfork (producers.map
            fun p => (p.hardforkVerVote, p.hardforkTimeVote)) with
          | none => rfl
          | some vote => rfl
        exact ⟨_, tryCatch_ok ((bind_ok ran).trans (bind_ok tallied)),
          .inr ⟨ends, schedule, mid, producers, ran, read, rfl⟩⟩
  · exact ⟨db, rfl, .inl (Moves.refl db)⟩

variable {block : Applied} {c d : Controller}

/-- Updating the round keeps what moves and global data keep. -/
theorem updateGlobalProperties_keeps {I : Database → Prop}
    (move : ∀ s t, Move block s t → I s → I t)
    (global : ∀ db cell, I db → I { db with globalProperties := cell }) {s t : Database}
    (chosen : (updateGlobalProperties block.header).run s = .ok () t) (start : I s) : I t := by
  obtain ⟨last, ran, outcome⟩ := updateGlobalProperties_cases block s
  rw [ran] at chosen
  cases chosen
  rcases outcome with moved | ⟨-, schedule, mid, producers, calculated, -, rfl⟩
  · exact Moves.keeps move moved start
  · have moved : Moves block s mid := (Moves.calculateNextRound block.header).of_ok calculated
    exact global mid _ (Moves.keeps move moved start)

/-- The database with a block as the last irreversible one, if it is later, and no undo history up
to it. -/
def settleDb (newLast : U32) (db : Database) : Database :=
  (if db.dynamic.lastIrreversibleBlockNum < newLast then
    { db with
      dynamicGlobalProperties := db.dynamicGlobalProperties.modify
        fun d => { d with lastIrreversibleBlockNum := newLast } }
  else db).commit newLast.toNat

/-- Settling leaves the global data. -/
theorem global_settleDb (newLast : U32) (db : Database) :
    (settleDb newLast db).global = db.global := by
  unfold settleDb
  split
  · rfl
  · rfl

/-- And the producers. -/
theorem producers_settleDb (newLast : U32) (db : Database) :
    (settleDb newLast db).producers.find = db.producers.find := by
  unfold settleDb
  split
  · rfl
  · rfl

/-- The controller once the last irreversible block is brought up to date. -/
def settle (newLast : U32) (c : Controller) : Controller :=
  if c.db.dynamic.lastIrreversibleBlockNum < newLast then
    { c with
      db := settleDb newLast c.db
      lastIrreversibleBlockNum := newLast
      lastIrreversibleBlockHash := c.numberHash newLast }
  else { c with db := settleDb newLast c.db }

/-- The database of a settled controller. -/
@[simp] theorem db_settle (newLast : U32) (c : Controller) :
    (settle newLast c).db = settleDb newLast c.db := by
  unfold settle
  split <;> rfl

/-- The block that most producers of the round have confirmed, if they are all known. -/
def Confirms (db : Database) (newLast : U32) : Prop :=
  ∃ producers : List ProducerObject,
    (db.global.activeProducers.toList.filter (· ≠ 0)).map db.producers.find = producers.map some ∧
    confirmedByMost (producers.map (·.lastConfirmedBlockNum)) = some newLast

/-- Bringing the last irreversible block up to date returns exactly when there is such a block. -/
theorem updateLastIrreversibleBlock_eq_ok :
    updateLastIrreversibleBlock.run c = .ok () d ↔ ∃ newLast, Confirms c.db newLast ∧
      d = settle newLast c := by
  -- The objects are read, the confirmed block is found, and the two writes follow.
  have steps : ∀ newLast, (do
      let c ← get
      if c.db.dynamic.lastIrreversibleBlockNum < newLast then
        onDb (modifyDynamic fun d => { d with lastIrreversibleBlockNum := newLast })
        modify fun c =>
          { c with
            lastIrreversibleBlockNum := newLast
            lastIrreversibleBlockHash := c.numberHash newLast }
      onDb (modify fun db => db.commit newLast.toNat) : EStateM Failure Controller Unit).run c =
        .ok () (settle newLast c) := by
    intro newLast
    rw [run_get_bind]
    unfold settle settleDb
    dsimp only
    split
    · rfl
    · rfl
  unfold updateLastIrreversibleBlock
  rw [bind_eq_ok]
  constructor
  · rintro ⟨producers, m, read, rest⟩
    obtain ⟨db, objects, rfl⟩ := zoom_eq_ok.mp read
    rw [run_get_bind, activeProducerObjects_eq_ok] at objects
    obtain ⟨rfl, objects⟩ := objects
    cases confirmed : confirmedByMost (producers.map (·.lastConfirmedBlockNum)) with
    | none =>
      rw [confirmed] at rest
      cases rest
    | some newLast =>
      rw [confirmed] at rest
      refine ⟨newLast, ⟨producers, objects, confirmed⟩, ?_⟩
      have same := (steps newLast).symm.trans rest
      cases same
      rfl
  · rintro ⟨newLast, ⟨producers, objects, confirmed⟩, rfl⟩
    refine ⟨producers, c, zoom_ok (activeProducerObjects_eq_ok.mpr ⟨rfl, objects⟩), ?_⟩
    rw [confirmed]
    exact steps newLast

/-- The phases of a block that is applied, with the database between them. -/
structure Phases (block : Applied) (before checked queued headed chosen signed after : Database) :
    Prop where
  check : Moves block before checked
  admitted : Admits block.view.powOps checked queued
  follow : Moves block queued headed
  choose : (updateGlobalProperties block.header).run headed = .ok () chosen
  sign : Moves block chosen signed
  settle : ∃ newLast, Confirms signed newLast ∧ after = settleDb newLast signed

/-- What opening a block does to the database, with the admissions in the middle. -/
theorem openBlock_phases {m : Controller}
    (opened : (openBlock block.lastBlockId block.view block.header).run c = .ok () m) :
    ∃ checked queued, Moves block c.db checked ∧
      Admits block.view.powOps checked queued ∧ Moves block queued m.db := by
  obtain ⟨_, m₁, validated, rest⟩ := bind_eq_ok.mp opened
  obtain ⟨valid, validRan, rfl⟩ := zoom_eq_ok.mp validated
  obtain ⟨_, m₂, processed, rest⟩ := bind_eq_ok.mp rest
  obtain ⟨checked, checkedRan, rfl⟩ := zoom_eq_ok.mp processed
  obtain ⟨_, m₃, worked, followed⟩ := bind_eq_ok.mp rest
  obtain ⟨queued, queuedRan, rfl⟩ := zoom_eq_ok.mp worked
  obtain ⟨admitted, ran, admits⟩ := updatePow_admits block.lastBlockId block.view.powOps checked
  have same : admitted = queued := by
    rw [ran] at queuedRan
    cases queuedRan
    rfl
  exact ⟨checked, queued, Moves.trans _ _ _ ((Moves.reads.validateBlockHeader _).of_ok validRan)
    (Moves.processBlockHeader.of_ok checkedRan), same ▸ admits,
    Moves.updatePvomiPerblock.of_ok followed⟩

/-- Hardforks that return change nothing. -/
theorem run_processHardforks {db db' : Database} (ran : processHardforks.run db = .ok () db') :
    db' = db := by
  rw [processHardforks, processHardforksLoop_succ, run_get_bind] at ran
  split at ran
  · cases ran
  · cases ran
    rfl

/-- A block that is accepted has been opened, has become the head, and was then signed and settled.
-/
theorem accept_steps (accepted : c.accept block = some d) :
    ∃ m headed chosen signed newLast,
      (openBlock block.lastBlockId block.view block.header).run
        { c with db := c.db.startUndoSession } = .ok () m ∧
      (updateGlobalDynamicData block.header).run m.db = .ok () headed ∧
      (updateGlobalProperties block.header).run headed = .ok () chosen ∧
      (updateSigningProducer block.header).run chosen = .ok () signed ∧
      Confirms signed newLast ∧ d = settle newLast { m with db := signed } := by
  obtain ⟨_, m, opened, rest⟩ := bind_eq_ok.mp (accept_eq_some.mp accepted)
  obtain ⟨_, n, advanced, rest⟩ := bind_eq_ok.mp rest
  obtain ⟨headed, headedRan, rfl⟩ := zoom_eq_ok.mp advanced
  obtain ⟨_, o, chose, confirmed⟩ := bind_eq_ok.mp rest
  obtain ⟨chosen, choice, rfl⟩ := zoom_eq_ok.mp chose
  obtain ⟨_, p, signs, rest⟩ := bind_eq_ok.mp confirmed
  obtain ⟨signed, signedRan, rfl⟩ := zoom_eq_ok.mp signs
  obtain ⟨_, q, settled, processed⟩ := bind_eq_ok.mp rest
  obtain ⟨newLast, confirms, rfl⟩ := updateLastIrreversibleBlock_eq_ok.mp settled
  obtain ⟨last, processedRan, rfl⟩ := zoom_eq_ok.mp processed
  cases run_processHardforks processedRan
  exact ⟨m, headed, chosen, signed, newLast, opened, headedRan, choice, signedRan, confirms, rfl⟩

/-- An accepted block goes through the phases. -/
theorem accept_phases (accepted : c.accept block = some d) :
    ∃ checked queued headed chosen signed,
      Phases block c.db.startUndoSession checked queued headed chosen signed d.db := by
  obtain ⟨m, headed, chosen, signed, newLast, opened, headedRan, choice, signedRan, confirms,
    rfl⟩ :=
    accept_steps accepted
  obtain ⟨checked, queued, check, admitted, follow⟩ := openBlock_phases opened
  exact ⟨checked, queued, headed, chosen, signed, {
    check
    admitted
    follow := Moves.trans _ _ _ follow (Moves.updateGlobalDynamicData.of_ok headedRan)
    choose := choice
    sign := Moves.updateSigningProducer.of_ok signedRan
    settle := ⟨newLast, confirms, db_settle newLast _⟩ }⟩

/-- Every producer has a property. -/
def AllProducers (Q : ProducerObject → Prop) (db : Database) : Prop :=
  ∀ a p, db.producers.find a = some p → Q p

/-- A property of new producers that nothing a block notes takes away. -/
structure Lasting (b : BlockHeader) (Q : ProducerObject → Prop) : Prop where
  fresh : ∀ place, Q { powWorker := place }
  noted : ∀ a before after, Noted b a before after → Q before → Q after

namespace Lasting

variable {block : Applied} {Q : ProducerObject → Prop} {s t : Database}

section

variable (lasting : Lasting block.header Q)

include lasting

/-- A move keeps a lasting property. -/
theorem move (move : Move block s t) (start : AllProducers Q s) : AllProducers Q t := by
  intro a after found
  rcases move.producer found with new | ⟨before, was, noted, -⟩
  · rw [new]
    exact lasting.fresh 0
  · exact lasting.noted a before after noted (start a before was)

/-- So do moves. -/
theorem moves (moves : Moves block s t) (start : AllProducers Q s) : AllProducers Q t :=
  Moves.keeps (fun _ _ => lasting.move) moves start

/-- And an admission. -/
theorem joins {worker : Address} (joined : Joins worker s t) (start : AllProducers Q s) :
    AllProducers Q t := by
  intro a after found
  cases joined with
  | @known producer voted was idle =>
    rw [Index.find_modify was] at found
    split at found
    · -- A place in the queue is not noted in the object otherwise.
      cases found
      exact lasting.noted worker producer _ ⟨.inl rfl, .inl rfl⟩ (start worker producer was)
    · exact start a after found
  | newcomer voted created =>
    rw [Index.find_emplace created] at found
    split at found
    · cases found
      exact lasting.fresh _
    · exact start a after found

/-- And all of them. -/
theorem admits {ops : List PowOperation} (admits : Admits ops s t) (start : AllProducers Q s) :
    AllProducers Q t := by
  induction admits with
  | done => exact start
  | pass _ ih => exact ih start
  | join first _ ih => exact ih (lasting.joins first start)

/-- And the choice of a round. -/
theorem choose (chosen : (updateGlobalProperties block.header).run s = .ok () t)
    (start : AllProducers Q s) : AllProducers Q t :=
  updateGlobalProperties_keeps (fun _ _ => lasting.move) (fun _ _ kept => kept) chosen start

end

/-- And settling. -/
theorem settle (newLast : U32) (start : AllProducers Q s) :
    AllProducers Q (settleDb newLast s) := by
  unfold settleDb
  split
  · exact start
  · exact start

/-- A lasting property holds after every phase. -/
theorem phases {checked queued headed chosen signed : Database} (lasting : Lasting block.header Q)
    (phases : Phases block s checked queued headed chosen signed t) (start : AllProducers Q s) :
    AllProducers Q headed ∧ AllProducers Q signed ∧ AllProducers Q t := by
  have beforeRound := lasting.moves phases.follow
    (lasting.admits phases.admitted (lasting.moves phases.check start))
  have afterRound := lasting.moves phases.sign (lasting.choose phases.choose beforeRound)
  obtain ⟨newLast, -, rfl⟩ := phases.settle
  exact ⟨beforeRound, afterRound, settle newLast afterRound⟩

end Lasting

end Controller

end Etiam
