import Etiam.Producer.Controller

/-! What the steps of applying a block may write, said once for every relation that is kept. -/

namespace Etiam

open Exec Database

/-- What only the end of a block changes of the data that every block changes. -/
def DynamicGlobalPropertyObject.clock (d : DynamicGlobalPropertyObject) : U32 × U32 × U64 :=
  (d.headBlockNumber, d.time, d.currentAbsoluteSlot)

/-- What is counted of a producer: the slot it signed in last, and the slots it missed. -/
def ProducerObject.record (p : ProducerObject) : U64 × BitVec 64 := (p.lastAslot, p.totalMissed)

/-- A relation between databases that programs without writes stay within, step by step. -/
structure ReadFrame (R : Database → Database → Prop) : Prop where
  refl : ∀ s, R s s
  trans : ∀ r s t, R r s → R s t → R r t

/-- A relation between databases that writes outside the race and the clock stay within. -/
structure WriteFrame (R : Database → Database → Prop) : Prop extends ReadFrame R where
  producer : ∀ a f, Within R (modifyProducer a f)
  addProducer : ∀ a p, Within R (onProducers (Index.create a (.ok p)))
  global : ∀ f, Within R (modifyGlobal f)
  queue : ∀ f : DynamicGlobalPropertyObject → DynamicGlobalPropertyObject,
    (∀ d, (f d).clock = d.clock) → Within R (modifyDynamic f)

namespace WriteFrame

variable {R : Database → Database → Prop} {α : Type}

/-- A choice stays within what both branches stay within. -/
theorem ite {p : Prop} [Decidable p] {x y : DbM α} (yes : Within R x) (no : Within R y) :
    Within R (if p then x else y) := by
  split
  · exact yes
  · exact no

/-- The relation between controllers whose databases are related. -/
def Lifted (R : Database → Database → Prop) (c d : Controller) : Prop := R c.db d.db

/-- A program on the database stays within the relation between controllers. -/
theorem onDb {x : DbM α} (within : Within R x) : Within (Lifted R) (Controller.onDb x) :=
  Within.zoom fun c => within c.db

end WriteFrame

namespace ReadFrame

open WriteFrame (ite Lifted onDb)

variable {R : Database → Database → Prop} {α β : Type} (frame : ReadFrame R)

include frame

/-- A sequence stays within the frame. -/
theorem bind {x : DbM α} {f : α → DbM β} (first : Within R x)
    (second : ∀ a, Within R (f a)) : Within R (x >>= f) :=
  Within.bind frame.trans first second

/-- So does what depends on the state. -/
theorem get_bind {f : Database → DbM β} (rest : ∀ s, Within R (f s)) :
    Within R (MonadState.get >>= f) :=
  frame.bind (Within.get frame.refl) rest

/-- Returning writes nothing. -/
theorem pure (a : α) : Within R (Pure.pure a : DbM α) :=
  Within.pure frame.refl a

/-- Failing writes nothing. -/
theorem throw (e : Failure) : Within R (MonadExcept.throw e : DbM α) :=
  Within.throw frame.refl e

/-- A step that may be left out, and what follows, stay within the frame. -/
theorem optional {p : Prop} [Decidable p] {x : DbM Unit} {f : Unit → DbM β}
    (step : Within R x) (rest : ∀ u, Within R (f u)) :
    Within R (if p then x >>= f else f ()) :=
  ite (frame.bind step rest) (rest ())

/-- Reading a producer stays within the frame. -/
theorem getProducer (a : Address) : Within R (onProducers (Index.get a)) := by
  refine Within.zoom fun s => ?_
  rw [Index.final_get]
  exact frame.refl s

/-- Reading a place of the race stays within the frame. -/
theorem getVotes (a : Address) : Within R (onVotes (Index.get a)) := by
  refine Within.zoom fun s => ?_
  rw [Index.final_get]
  exact frame.refl s

/-- Checking a header only reads. -/
theorem validateBlockHeader (b : BlockHeader) :
    Within R (Controller.validateBlockHeader b) := by
  unfold Controller.validateBlockHeader
  refine frame.optional (frame.throw _) fun _ => frame.get_bind fun db => ?_
  refine frame.optional (frame.throw _) fun _ => ?_
  exact frame.bind (frame.getProducer b.producer) fun _ => frame.pure _

/-- Reading the producers of the round stays within the frame. -/
theorem activeProducerObjects (names : List Address) :
    Within R (Controller.activeProducerObjects names) :=
  Within.mapM frame.refl frame.trans fun name _ => frame.getProducer name

/-- Hardforks are not applied yet, so nothing is written. -/
theorem processHardforks : Within R Controller.processHardforks := by
  rw [Controller.processHardforks, Controller.processHardforksLoop_succ]
  exact frame.get_bind fun _ => ite (frame.throw _) (frame.pure _)

/-- Advancing the race is laps and a new race time. -/
theorem advanceRace (lap : ∀ a now, Within R (onVotes (Index.change a (Race.startNewRaceLap now))))
    (time : ∀ now, Within R (setRaceTime now)) (runnerup : Address) :
    Within R (Schedule.advanceRace runnerup) := by
  have reset : Within R Schedule.resetProducerRace :=
    frame.get_bind fun db => frame.bind
      (Within.forM frame.refl frame.trans fun a _ => lap a 0) fun _ => time 0
  unfold Schedule.advanceRace
  refine frame.bind (frame.getVotes runnerup) fun race => frame.get_bind fun db => ?_
  refine Within.tryCatch frame.trans (ite ?_ reset) fun _ => reset
  exact frame.bind (Within.forM frame.refl frame.trans fun a _ => lap a _) fun _ => time _

/-- Choosing a round is filling its places and advancing the race. -/
theorem calculateNextRound (fill : ∀ selected, Within R (Schedule.fillRound selected))
    (race : ∀ runnerup, Within R (Schedule.advanceRace runnerup)) (b : BlockHeader) :
    Within R (Controller.calculateNextRound b) := by
  refine frame.bind ?_ fun _ => frame.pure _
  unfold Schedule.calculateNextRound
  refine frame.get_bind fun db => frame.optional (frame.throw _) fun _ => ?_
  refine frame.bind (fill _) fun round => ?_
  split
  · exact frame.pure _
  · exact frame.bind (race _) fun _ => frame.pure _

/-- Counting missed slots is a count against producers. -/
theorem countMissed
    (count : ∀ a, Within R (modifyProducer a fun p => { p with totalMissed := p.totalMissed + 1 }))
    (b : BlockHeader) (missed : ℕ) : Within R (Controller.countMissed b missed) := by
  refine Within.forM frame.refl frame.trans fun i _ => frame.get_bind fun db => ?_
  refine ite (frame.bind (frame.getProducer _) fun _ => ?_) (frame.pure _)
  exact ite (count _) (frame.pure _)

/-- Controllers with one database are related. -/
theorem lifted_refl (c : Controller) : Lifted R c c := frame.refl c.db

/-- The relation between controllers is transitive. -/
theorem lifted_trans (c d e : Controller) (first : Lifted R c d)
    (second : Lifted R d e) : Lifted R c e :=
  frame.trans c.db d.db e.db first second

/-- Following a candidate changes its place in the race or enlists it. -/
theorem followCandidate {a : Address} {info : VoteInfo}
    (change : ∀ f, Within R (onVotes (Index.change a f)))
    (enlist : info.isCandidate = true → Within R (Controller.enlist a)) :
    Within (Lifted R) (Controller.followCandidate a info) := by
  have keep : Within (Lifted R) (Controller.remember a info.receivedVote) :=
    fun c => frame.lifted_refl c
  unfold Controller.followCandidate
  split
  · exact Within.pure frame.lifted_refl _
  · next candidate =>
    refine Within.bind frame.lifted_trans (Within.get frame.lifted_refl) fun c => ?_
    split
    · split
      · exact Within.pure frame.lifted_refl _
      · exact Within.bind frame.lifted_trans (onDb (change _)) fun _ => keep
    · exact Within.bind frame.lifted_trans (onDb (enlist (by simpa using candidate)))
        fun _ => keep

/-- Following the vote table is following its candidates and forgetting those that have left. -/
theorem updatePvomiPerblock {votes : Std.ExtTreeMap Address VoteInfo}
    (follow : ∀ entry ∈ votes.toList,
      Within (Lifted R) (Controller.followCandidate entry.1 entry.2))
    (leave : ∀ a, Within R (onVotes (Index.delete a))) :
    Within (Lifted R) (Controller.updatePvomiPerblock votes) := by
  refine Within.bind frame.lifted_trans (Within.forM frame.lifted_refl frame.lifted_trans follow)
    fun _ => Within.bind frame.lifted_trans (Within.get frame.lifted_refl) fun c =>
      Within.forM frame.lifted_refl frame.lifted_trans fun a _ => ?_
  exact Within.bind frame.lifted_trans (onDb (leave a)) fun _ => fun d => frame.lifted_refl d

end ReadFrame

/-- A relation between databases that writes stay within which are outside the race and the clock
and count nothing of a producer. -/
structure NoteFrame (R : Database → Database → Prop) : Prop extends ReadFrame R where
  note : ∀ a f, (∀ p : ProducerObject, (f p).record = p.record) → Within R (modifyProducer a f)
  addProducer : ∀ a place, Within R (onProducers (Index.create a (.ok { powWorker := place })))
  global : ∀ f, Within R (modifyGlobal f)
  queue : ∀ f : DynamicGlobalPropertyObject → DynamicGlobalPropertyObject,
    (∀ d, (f d).clock = d.clock ∧ (f d).recentSlotsFilled = d.recentSlotsFilled) →
    Within R (modifyDynamic f)

namespace NoteFrame

open WriteFrame (ite Lifted onDb)

variable {R : Database → Database → Prop} {α β : Type} (frame : NoteFrame R)

include frame

/-- The votes for a hardfork are notes on the producer. -/
theorem processBlockHeader (b : BlockHeader) :
    Within R (Controller.processBlockHeader b) := by
  unfold Controller.processBlockHeader
  refine frame.bind (frame.getProducer b.producer) fun producer => ?_
  refine frame.optional (frame.note _ _ fun _ => rfl) fun _ => ?_
  refine frame.optional (frame.note _ _ fun _ => rfl) fun _ => ?_
  exact frame.get_bind fun db => ite (frame.throw _) (frame.pure _)

/-- A worker joins the queue by a note or as a new producer. -/
theorem admitWorker (lastBlockId target : Hash) (op : PowOperation) :
    Within R (Controller.admitWorker lastBlockId target op) := by
  unfold Controller.admitWorker
  refine frame.get_bind fun db => ite (frame.pure _) (ite (frame.pure _) (ite (frame.pure _) ?_))
  split
  · refine ite (frame.pure _) (frame.bind (frame.queue _ fun _ => ⟨rfl, rfl⟩) fun _ => ?_)
    exact frame.get_bind fun db => frame.note _ _ fun _ => rfl
  · refine frame.bind (frame.queue _ fun _ => ⟨rfl, rfl⟩) fun _ => ?_
    exact frame.get_bind fun db => frame.addProducer _ _

/-- All operations of a block stay within the frame. -/
theorem updatePow (lastBlockId : Hash) (powOps : List PowOperation) :
    Within R (Controller.updatePow lastBlockId powOps) :=
  frame.get_bind fun _ => Within.forM frame.refl frame.trans
    fun op _ => frame.admitWorker lastBlockId _ op

/-- Counting the votes writes the global data. -/
theorem updateHardforkVotes : Within R Controller.updateHardforkVotes := by
  unfold Controller.updateHardforkVotes
  refine frame.get_bind fun db => frame.bind (frame.activeProducerObjects _) fun producers => ?_
  split
  · exact frame.global _
  · exact frame.global _

/-- Leaving the queue is a note, and one place less to count. -/
theorem leavePow (owner : Address) : Within R (Schedule.leavePow owner) :=
  frame.bind (frame.note _ _ fun _ => rfl) fun _ => frame.queue _ fun _ => ⟨rfl, rfl⟩

/-- Dropping the first of a long queue stays within the frame. -/
theorem dropSurplusPow : Within R Schedule.dropSurplusPow := by
  unfold Schedule.dropSurplusPow
  refine frame.get_bind fun db => ite ?_ (frame.pure _)
  split
  · exact frame.leavePow _
  · exact frame.pure _

/-- Taking workers off the queue stays within the frame. -/
theorem takePow (fuel places : ℕ) (processed upcoming : List Address) :
    Within R (Schedule.takePow fuel places processed upcoming) := by
  induction fuel generalizing places processed upcoming with
  | zero => exact frame.pure _
  | succ fuel ih =>
    rcases places with _ | places
    · exact frame.pure _
    · rcases upcoming with _ | ⟨owner, rest⟩
      · exact frame.pure _
      · refine ite (ih _ _ _) (frame.bind (frame.leavePow owner) fun _ =>
          frame.get_bind fun db => ?_)
        exact ite (frame.bind (ih _ _ _) fun _ => frame.pure _) (ih _ _ _)

/-- Filling the places of a round stays within the frame. -/
theorem fillRound (selected : List Address) :
    Within R (Schedule.fillRound selected) :=
  frame.bind frame.dropSurplusPow fun _ => frame.get_bind fun _ =>
    frame.bind (frame.takePow _ _ _ _) fun _ => frame.pure _

/-- So does updating the round. -/
theorem updateGlobalProperties (race : ∀ runnerup, Within R (Schedule.advanceRace runnerup))
    (b : BlockHeader) : Within R (Controller.updateGlobalProperties b) := by
  unfold Controller.updateGlobalProperties
  refine ite (Within.tryCatch frame.trans ?_ fun _ => frame.pure _) (frame.pure _)
  refine frame.bind (frame.calculateNextRound frame.fillRound race b) fun _ => ?_
  exact frame.bind frame.updateHardforkVotes fun _ => frame.global _

/-- Enlisting enters the race, and adds the producer or takes it off the queue. -/
theorem enlist (a : Address)
    (enter : ∀ now, Within R (onVotes (Index.create a (Race.startNewRaceLap now .start)))) :
    Within R (Controller.enlist a) := by
  unfold Controller.enlist
  refine frame.get_bind fun db => frame.bind (enter _) fun _ => ?_
  split
  · exact frame.addProducer _ _
  · exact ite (frame.leavePow a) (frame.pure _)

/-- Settling blocks stays within a frame that dropping history stays within. -/
theorem updateLastIrreversibleBlock (commit : ∀ db revision, R db (db.commit revision)) :
    Within (Lifted R) Controller.updateLastIrreversibleBlock := by
  unfold Controller.updateLastIrreversibleBlock
  refine Within.bind frame.lifted_trans
    (onDb (frame.get_bind fun db => frame.activeProducerObjects _)) fun producers => ?_
  split
  · exact Within.throw frame.lifted_refl _
  · next newLast confirmed =>
    have drop : Within (Lifted R)
        (Controller.onDb (modify fun db => db.commit newLast.toNat)) :=
      onDb fun db => commit db newLast.toNat
    refine Within.bind frame.lifted_trans (Within.get frame.lifted_refl) fun c => ?_
    dsimp only
    split
    · refine Within.bind frame.lifted_trans (onDb (frame.queue _ fun _ => ⟨rfl, rfl⟩)) fun _ => ?_
      exact Within.bind frame.lifted_trans (fun d => frame.lifted_refl d) fun _ => drop
    · exact drop

end NoteFrame

namespace WriteFrame

variable {R : Database → Database → Prop}

variable (frame : WriteFrame R)

include frame

/-- A frame for all writes is one for those that count nothing. -/
theorem notes : NoteFrame R where
  toReadFrame := frame.toReadFrame
  note a f _ := frame.producer a f
  addProducer a _ := frame.addProducer a _
  global := frame.global
  queue f same := frame.queue f fun d => (same d).1

/-- Crediting the signer writes its producer. -/
theorem updateSigningProducer (b : BlockHeader) : Within R (Controller.updateSigningProducer b) :=
  frame.get_bind fun _ => frame.producer _ _

/-- The end of a block stays within the frame. -/
theorem confirmBlock (commit : ∀ db revision, R db (db.commit revision)) (b : BlockHeader) :
    Within (Lifted R) (Controller.confirmBlock b) := by
  refine Within.bind frame.lifted_trans (onDb (frame.updateSigningProducer b)) fun _ => ?_
  exact Within.bind frame.lifted_trans (frame.notes.updateLastIrreversibleBlock commit)
    fun _ => onDb frame.processHardforks

end WriteFrame

/-- The race stays as it is. -/
def SameRace (before after : Database) : Prop := after.producerVotes = before.producerVotes

/-- What is written outside the race leaves the race. -/
theorem writeFrame_sameRace : WriteFrame SameRace where
  refl _ := rfl
  trans _ _ _ first second := Eq.trans second first
  producer _ _ := Within.zoom fun _ => rfl
  addProducer _ _ := Within.zoom fun _ => rfl
  global _ := fun _ => rfl
  queue _ _ := fun _ => rfl

namespace Schedule

/-- The race and its time stay as they are. -/
def SameTrack (before after : Database) : Prop :=
  after.producerVotes = before.producerVotes ∧
    after.currentRaceTime.value = before.currentRaceTime.value

/-- It leaves the race time as well. -/
theorem writeFrame_sameTrack : WriteFrame SameTrack where
  refl _ := ⟨rfl, rfl⟩
  trans _ _ _ first second := ⟨second.1.trans first.1, second.2.trans first.2⟩
  producer _ _ := Within.zoom fun _ => ⟨rfl, rfl⟩
  addProducer _ _ := Within.zoom fun _ => ⟨rfl, rfl⟩
  global _ := fun _ => ⟨rfl, rfl⟩
  queue _ _ := fun _ => ⟨rfl, rfl⟩

end Schedule

/-- A frame for what counts nothing that also covers every write of the race. -/
structure TrackFrame (R : Database → Database → Prop) : Prop extends NoteFrame R where
  enter : ∀ a race, Within R (onVotes (Index.create a race))
  change : ∀ a f, Within R (onVotes (Index.change a f))
  leave : ∀ a, Within R (onVotes (Index.delete a))
  time : ∀ now, Within R (setRaceTime now)

namespace TrackFrame

open WriteFrame (Lifted onDb)

variable {R : Database → Database → Prop}

variable (frame : TrackFrame R)

include frame

/-- Advancing the race stays within the frame. -/
theorem advanceRace (runnerup : Address) : Within R (Schedule.advanceRace runnerup) :=
  frame.toReadFrame.advanceRace (fun a _ => frame.change a _) frame.time runnerup

/-- So does everything up to the count of missed slots. -/
theorem openBlock (lastBlockId : Hash) (view : ParentView) (b : BlockHeader) :
    Within (Lifted R) (Controller.openBlock lastBlockId view b) := by
  refine Within.bind frame.lifted_trans (onDb (frame.validateBlockHeader b)) fun _ => ?_
  refine Within.bind frame.lifted_trans (onDb (frame.processBlockHeader b)) fun _ => ?_
  refine Within.bind frame.lifted_trans (onDb (frame.updatePow lastBlockId view.powOps)) fun _ => ?_
  exact frame.updatePvomiPerblock (fun entry _ => frame.followCandidate (frame.change entry.1)
    fun _ => frame.enlist entry.1 fun _ => frame.enter entry.1 _) frame.leave

end TrackFrame

/-- A frame that also covers every write of the race. -/
structure RaceFrame (R : Database → Database → Prop) : Prop extends WriteFrame R where
  enter : ∀ a race, Within R (onVotes (Index.create a race))
  change : ∀ a f, Within R (onVotes (Index.change a f))
  leave : ∀ a, Within R (onVotes (Index.delete a))
  time : ∀ now, Within R (setRaceTime now)

/-- A frame for all writes of a block is one for those that count nothing. -/
theorem RaceFrame.tracks {R : Database → Database → Prop} (frame : RaceFrame R) :
    TrackFrame R where
  toNoteFrame := frame.notes
  enter := frame.enter
  change := frame.change
  leave := frame.leave
  time := frame.time

namespace Controller

/-- The remembered votes stay as they are. -/
def SameMemory (c d : Controller) : Prop := d.allVotes = c.allVotes

/-- A program on the database leaves the remembered votes. -/
theorem onDb_sameMemory {α : Type} (x : DbM α) : Within SameMemory (onDb x) :=
  Within.zoom fun _ => rfl

/-- So does the end of a block. -/
theorem confirmBlock_sameMemory (b : BlockHeader) : Within SameMemory (confirmBlock b) := by
  have refl : ∀ c, SameMemory c c := fun _ => rfl
  have trans : ∀ c d e, SameMemory c d → SameMemory d e → SameMemory c e :=
    fun _ _ _ first second => Eq.trans second first
  have irreversible : Within SameMemory updateLastIrreversibleBlock := by
    unfold updateLastIrreversibleBlock
    refine Within.bind trans (onDb_sameMemory _) fun producers => ?_
    split
    · exact Within.throw refl _
    · refine Within.bind trans (Within.get refl) fun c => ?_
      dsimp only
      split
      · exact Within.bind trans (onDb_sameMemory _) fun _ =>
          Within.bind trans (fun _ => rfl) fun _ => onDb_sameMemory _
      · exact onDb_sameMemory _
  refine Within.bind trans (onDb_sameMemory _) fun _ => ?_
  exact Within.bind trans irreversible fun _ => onDb_sameMemory _

/-- After a block is opened the remembered votes stay as they are. -/
theorem applyBlock_sameMemory {lastBlockId : Hash} {view : ParentView} {b : BlockHeader}
    {c m d : Controller} (opened : (openBlock lastBlockId view b).run c = .ok () m)
    (applied : (applyBlock lastBlockId view b).run c = .ok () d) : SameMemory m d := by
  unfold applyBlock at applied
  rw [bind_ok opened] at applied
  obtain ⟨_, n, advanced, rest⟩ := bind_eq_ok.mp applied
  obtain ⟨_, o, chosen, confirmed⟩ := bind_eq_ok.mp rest
  have first := (onDb_sameMemory (updateGlobalDynamicData b)).of_ok advanced
  have second := (onDb_sameMemory (updateGlobalProperties b)).of_ok chosen
  have third := (confirmBlock_sameMemory b).of_ok confirmed
  exact Eq.trans third (Eq.trans second first)

end Controller

end Etiam
