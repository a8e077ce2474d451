import Etiam.Producer.Round

/-! The queue for proof of work in whole runs: its counter, its places and who is in it. -/

namespace Etiam

open Exec Database
open Controller (Applied Joins Eligible)

theorem Move.place {block : Applied} {s t : Database} (move : Move block s t) {a : Address}
    {after : ProducerObject} (found : t.producers.find a = some after) :
    after.powWorker = 0 ∨ ∃ before, s.producers.find a = some before ∧
      before.powWorker = after.powWorker := by
  obtain rfl | ⟨before, was, -, kept | left⟩ := move.producer found
  · exact .inl rfl
  · exact .inr ⟨before, was, kept.symm⟩
  · exact .inl left

/-- The queue is tallied, its places are different, none of them is ahead of the counter of
admissions, and that counter is within a limit. -/
structure Lined (limit : ℕ) (db : Database) : Prop extends Tallied db where
  different : ∀ a b p q, db.producers.find a = some p → db.producers.find b = some q →
    p.powWorker ≠ 0 → p.powWorker = q.powWorker → a = b
  bounded : ∀ a p, db.producers.find a = some p → p.powWorker ≤ db.dynamic.totalPow
  total : db.dynamic.totalPow.toNat ≤ limit

namespace Lined

variable {block : Applied} {limit : ℕ} {db db' : Database}

theorem of_places (lined : Lined limit db) (tallied : Tallied db')
    (places : ∀ a after, db'.producers.find a = some after → after.powWorker = 0 ∨
      ∃ before, db.producers.find a = some before ∧ before.powWorker = after.powWorker)
    (total : db'.dynamic.totalPow = db.dynamic.totalPow) : Lined limit db' := by
  refine ⟨tallied, fun a b p q foundA foundB queued same => ?_, fun a p found => ?_, ?_⟩
  · obtain ⟨p', wasA, placeA⟩ := (places a p foundA).resolve_left queued
    obtain ⟨q', wasB, placeB⟩ := (places b q foundB).resolve_left (same ▸ queued)
    refine lined.different a b p' q' wasA wasB (placeA ▸ queued) ?_
    rw [placeA, placeB, same]
  · rw [total]
    rcases places a p found with idle | ⟨before, was, place⟩
    · rw [idle]
      exact BitVec.le_def.mpr (Nat.zero_le _)
    · rw [← place]
      exact lined.bounded a before was
  · rw [total]
    exact lined.total

theorem congr (lined : Lined limit db) (votes : db'.producerVotes.find = db.producerVotes.find)
    (producers : db'.producers.find = db.producers.find)
    (num : db'.dynamic.numPowWitnesses = db.dynamic.numPowWitnesses)
    (total : db'.dynamic.totalPow = db.dynamic.totalPow) : Lined limit db' := by
  refine lined.of_places (lined.toTallied.congr (fun a absent => ?_) (fun a => ?_) num)
    (fun a after found => .inr ⟨after, ?_, rfl⟩) total
  · rw [votes]
    exact absent
  · rw [Index.Queued, Index.Queued, producers]
  · rw [← producers]
    exact found

theorem move (move : Move block db db') (lined : Lined limit db) : Lined limit db' :=
  lined.of_places (lined.toTallied.move move) (fun _ _ => move.place) move.totalPow

theorem join {worker : Address} (joined : Joins worker db db') (room : limit + 1 < 2 ^ 64)
    (lined : Lined limit db) : Lined (limit + 1) db' := by
  have within := lined.total
  have next : db'.dynamic.totalPow = db.dynamic.totalPow + 1 := by
    rw [joined.dynamic]
    rfl
  have value : (db.dynamic.totalPow + 1).toNat = db.dynamic.totalPow.toNat + 1 := by bv_omega
  obtain ⟨producer, place, found⟩ := joined.find
  -- The place of the worker is one that nobody has.
  have ahead : ∀ a p, db.producers.find a = some p → p.powWorker < producer.powWorker := by
    intro a p was
    have bound := BitVec.le_def.mp (lined.bounded a p was)
    rw [place, BitVec.lt_def, value]
    omega
  refine ⟨lined.toTallied.join joined (by bv_omega), fun a b p q foundA foundB queued same => ?_,
    fun a p now => ?_, ?_⟩
  · rw [found] at foundA foundB
    split at foundA
    · next ownA =>
      split at foundB
      · next ownB => exact ownA.symm.trans ownB
      · cases foundA
        exact absurd (ahead b q foundB) (same ▸ BitVec.lt_irrefl _)
    · split at foundB
      · cases foundB
        exact absurd (ahead a p foundA) (same ▸ BitVec.lt_irrefl _)
      · exact lined.different a b p q foundA foundB queued same
  · rw [found] at now
    rw [next]
    split at now
    · cases now
      rw [place]
      exact BitVec.le_refl _
    · rw [← place]
      exact BitVec.le_of_lt (ahead a p now)
  · rw [next, value]
    omega

theorem admits {ops : List PowOperation} (admits : Admits ops db db')
    (room : limit + ops.length < 2 ^ 64) (lined : Lined limit db) :
    Lined (limit + ops.length) db' := by
  induction admits generalizing limit with
  | done => exact lined
  | @pass op rest db db' _ ih =>
    rw [List.length_cons] at room ⊢
    obtain ⟨tallied, different, bounded, total⟩ := ih (by omega) lined
    exact ⟨tallied, different, bounded, by omega⟩
  | @join op rest db mid db' first _ ih =>
    rw [List.length_cons] at room ⊢
    have further := ih (by omega) (lined.join first (by omega))
    rwa [show limit + 1 + rest.length = limit + (rest.length + 1) by omega] at further

end Lined

namespace Controller

theorem lined_initializeChain {initialProducers : List Address} {c : Controller}
    (started : initializeChain initialProducers = some c) : Lined 0 c.db := by
  have registered := registered_initializeChain started
  have idle : ∀ a p, c.db.producers.find a = some p → p.powWorker = 0 := by
    intro a p found
    rw [(find_initializeChain started a).2] at found
    split at found
    · cases found
      rfl
    · cases found
  refine ⟨registered.tallied, fun a b p q foundA _ queued _ => ?_, fun a p found => ?_,
    registered.total⟩
  · exact absurd (idle a p foundA) queued
  · rw [idle a p found]
    exact BitVec.le_def.mpr (Nat.zero_le _)

theorem phased_lined : Phased (fun _ => True) Lined where
  start := lined_initializeChain
  move _ := Lined.move
  admits _ := Lined.admits
  congr := Lined.congr

/-- Check the header of a block and take note of it. -/
def checkHeader (b : BlockHeader) : DbM Unit := do
  validateBlockHeader b
  processBlockHeader b

/-- The databases that a run leads to in its last block: after the queue is updated, after the race
is brought up to date, and after a round is chosen. -/
inductive PowStage (initialProducers : List Address) : List Applied → Database → Prop
  | updatePow {blocks : List Applied} {c : Controller} {block : Applied} {checked : Database}
    (replayed : replay initialProducers blocks = some c)
    (header : (checkHeader block.header).run c.db.startUndoSession = .ok () checked) :
    PowStage initialProducers (blocks ++ [block])
      (final ((updatePow block.lastBlockId block.view.powOps).run checked))
  | updatePvomiPerblock {blocks : List Applied} {c : Controller} {block : Applied}
    {checked queued : Database} (replayed : replay initialProducers blocks = some c)
    (header : (checkHeader block.header).run c.db.startUndoSession = .ok () checked)
    (worked : (updatePow block.lastBlockId block.view.powOps).run checked = .ok () queued) :
    PowStage initialProducers (blocks ++ [block])
      (final ((updatePvomiPerblock block.view.votes).run { c with db := queued })).db
  | calculateNextRound {blocks : List Applied} {c m : Controller} {block : Applied}
    {headed : Database} (replayed : replay initialProducers blocks = some c)
    (opened : (openBlock block.lastBlockId block.view block.header).run
      { c with db := c.db.startUndoSession } = .ok () m)
    (head : (updateGlobalDynamicData block.header).run m.db = .ok () headed) :
    PowStage initialProducers (blocks ++ [block])
      (final ((calculateNextRound block.header).run headed))

theorem moves_checkHeader {block : Applied} {db checked : Database}
    (header : (checkHeader block.header).run db = .ok () checked) : Moves block db checked := by
  obtain ⟨_, valid, validated, processed⟩ := bind_eq_ok.mp header
  exact Moves.trans _ _ _ ((Moves.reads.validateBlockHeader _).of_ok validated)
    (Moves.processBlockHeader.of_ok processed)

/-- The queue is in line at every stage of a run with room for its admissions. -/
theorem PowStage.lined {initialProducers : List Address} {blocks : List Applied} {db : Database}
    (stage : PowStage initialProducers blocks db) (few : collected blocks < 2 ^ 64) :
    Lined (collected blocks) db := by
  cases stage with
  | @updatePow earlier c block checked replayed header =>
    rw [collected_concat] at few ⊢
    obtain ⟨queued, ran, admitted⟩ := updatePow_admits block.lastBlockId block.view.powOps checked
    have start := phased_lined.startUndoSession
      (phased_lined.replay (fun _ _ => trivial) (by omega) replayed)
    rw [ran, final_ok]
    exact (phased_lined.moves trivial (moves_checkHeader header) start).admits admitted few
  | @updatePvomiPerblock earlier c block checked queued replayed header worked =>
    rw [collected_concat] at few ⊢
    obtain ⟨admitted, ran, admits⟩ := updatePow_admits block.lastBlockId block.view.powOps checked
    have same : admitted = queued := by
      rw [ran] at worked
      cases worked
      rfl
    subst same
    have start := phased_lined.startUndoSession
      (phased_lined.replay (fun _ _ => trivial) (by omega) replayed)
    have after := (phased_lined.moves trivial (moves_checkHeader header) start).admits admits few
    have followed : Moves block admitted
        (final ((Controller.updatePvomiPerblock block.view.votes).run
          { c with db := admitted })).db := Moves.updatePvomiPerblock { c with db := admitted }
    exact phased_lined.moves trivial followed after
  | @calculateNextRound earlier c m block headed replayed opened head =>
    rw [collected_concat] at few ⊢
    have start := phased_lined.replay (fun _ _ => trivial) (by omega) replayed
    have opening := phased_lined.openBlock trivial few start opened
    have chose : Moves block headed
        (final ((Controller.calculateNextRound block.header).run headed)) :=
      Moves.calculateNextRound block.header headed
    exact phased_lined.moves trivial chose
      (phased_lined.moves trivial (Moves.updateGlobalDynamicData.of_ok head) opening)

end Controller

/-- The number of producers with a place in the queue. -/
def Database.queueSize (db : Database) : ℕ :=
  (db.producers.entries.toList.filter fun entry => entry.2.value.powWorker ≠ 0).length

theorem Database.length_byPow (db : Database) : db.producers.byPow.length = db.queueSize := by
  rw [Index.byPow, List.length_map, List.length_insertionSort, queueSize]

namespace Controller

/-- In every run the queue is counted by the word that counts it, its places are different and
within the counter of admissions, and nobody in it has votes. -/
theorem pow_queue_in_line {initialProducers : List Address} {blocks : List Applied}
    {db : Database} (few : collected blocks < 2 ^ 64)
    (stage : PowStage initialProducers blocks db) :
    db.dynamic.numPowWitnesses.toNat = db.queueSize % 2 ^ 32 ∧
    (∀ a b p q, db.producers.find a = some p → db.producers.find b = some q →
      p.powWorker ≠ 0 → p.powWorker = q.powWorker → a = b) ∧
    (∀ a p, db.producers.find a = some p → p.powWorker ≤ db.dynamic.totalPow) ∧
    ∀ a p, db.producers.find a = some p → p.powWorker ≠ 0 → db.producerVotes.find a = none := by
  have lined := stage.lined few
  refine ⟨?_, lined.different, lined.bounded, fun a p found queued =>
    lined.exclusive a ⟨p, found, queued⟩⟩
  rw [lined.counted, BitVec.toNat_ofNat, db.length_byPow]

/-- The first block of the only producer, with three workers. -/
def workedBlock : Applied :=
  { Applied.signed 100 1 1513580387 ∅ with
    view := { votes := ∅, powOps := [easyWork 1, easyWork 2, easyWork 3] } }

/-- Three workers that join with the first block are counted. -/
theorem pow_queue_in_line_three : ∃ db, PowStage [100] [workedBlock] db ∧ db.queueSize = 3 ∧
    db.dynamic.numPowWitnesses.toNat = 3 := by
  have evaluated : ((initializeChain [100]).any fun c : Controller =>
      let header := (checkHeader workedBlock.header).run c.db.startUndoSession
      (raised header).isNone ∧
        (final ((updatePow 0 workedBlock.view.powOps).run (final header))).queueSize = 3) =
          true := by
    decide +kernel
  obtain ⟨c, started, facts⟩ := (Option.any_eq_true _ _).mp evaluated
  obtain ⟨passed, size⟩ := of_decide_eq_true facts
  cases header : (checkHeader workedBlock.header).run c.db.startUndoSession with
  | error e last =>
    rw [header] at passed
    cases passed
  | ok u checked =>
    rw [header, final_ok] at size
    have stage := @PowStage.updatePow [100] [] c workedBlock checked
      (by rw [replay_nil, started]) header
    obtain ⟨counted, -⟩ := pow_queue_in_line (by decide) stage
    have same : (final ((updatePow workedBlock.lastBlockId workedBlock.view.powOps).run
        checked)).queueSize = 3 := size
    rw [same] at counted
    exact ⟨_, stage, same, counted⟩

end Controller

end Etiam
