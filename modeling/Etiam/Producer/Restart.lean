import Etiam.Library.Exec
import Etiam.Producer.Frames
import Etiam.Producer.Pvomi
import Etiam.Vote.Manager

/-! Restarting a node: when votes that are rebuilt do as well as votes that were remembered. -/

namespace Etiam

namespace Controller

open Database Exec

/-- The controller of a node that is started again at the head of a run. -/
def restart (blocks : List Applied) (c : Controller) : Controller :=
  match blocks.getLast? with
  | none => initAllvotes 0 ∅ c
  | some head => initAllvotes head.header.number head.view.votes c

/-- An account that is listed in a vote table without being a candidate. -/
def Bystander (votes : Std.ExtTreeMap Address VoteInfo) (a : Address) : Prop :=
  ∃ info, votes[a]? = some info ∧ info.isCandidate = false

/-- Two controllers have one database and remember the same votes but for disputed accounts. -/
structure Agrees (disputed : Address → Prop) (c d : Controller) : Prop where
  db : d.db = c.db
  memory : ∀ a, ¬ disputed a → d.allVotes[a]? = c.allVotes[a]?

section Simulation

variable {disputed : Address → Prop}

theorem onDb_simulates {α : Type} (x : DbM α) :
    Simulates (Agrees disputed) (onDb x) (onDb x) := by
  rintro c d ⟨same, memory⟩
  cases ran : x.run c.db with
  | ok a db =>
    have ran' : x.run d.db = .ok a db := by rw [same, ran]
    unfold onDb
    rw [zoom_ok ran, zoom_ok ran']
    exact ⟨rfl, rfl, memory⟩
  | error e db =>
    have ran' : x.run d.db = .error e db := by rw [same, ran]
    unfold onDb
    rw [zoom_error ran, zoom_error ran']
    exact ⟨rfl, rfl, memory⟩

theorem remember_simulates (a : Address) (votes : U64) :
    Simulates (Agrees disputed) (remember a votes) (remember a votes) := by
  rintro c d ⟨same, memory⟩
  refine ⟨rfl, same, fun b settled => ?_⟩
  simp only [Std.ExtTreeMap.getElem?_insert]
  split
  · rfl
  · exact memory b settled

theorem forget_simulates (a : Address) :
    Simulates (Agrees disputed) (forget a) (forget a) := by
  refine Simulates.bind (onDb_simulates _) fun _ => ?_
  rintro c d ⟨same, memory⟩
  refine ⟨rfl, same, fun b settled => ?_⟩
  simp only [Std.ExtTreeMap.getElem?_erase]
  split
  · rfl
  · exact memory b settled

theorem followCandidate_simulates {a : Address} {info : VoteInfo}
    (settled : info.isCandidate = true → ¬ disputed a) :
    Simulates (Agrees disputed) (followCandidate a info) (followCandidate a info) := by
  unfold followCandidate
  cases candidate : info.isCandidate with
  | false => exact Simulates.pure _
  | true =>
    refine Simulates.get_bind fun c d agrees => ?_
    rw [agrees.memory a (settled candidate), agrees.db]
    cases c.allVotes[a]? with
    | some known =>
      dsimp only
      by_cases same : info.receivedVote - known = 0
      · rw [if_pos same]
        exact Simulates.pure _ c d agrees
      · rw [if_neg same]
        exact Simulates.bind (onDb_simulates _) (fun _ => remember_simulates a _) c d agrees
    | none =>
      exact Simulates.bind (onDb_simulates _) (fun _ => remember_simulates a _) c d agrees

theorem updatePvomiPerblock_simulates {votes : Std.ExtTreeMap Address VoteInfo}
    (settled : ∀ a, disputed a → Bystander votes a) :
    Simulates (Agrees disputed) (updatePvomiPerblock votes) (updatePvomiPerblock votes) := by
  unfold updatePvomiPerblock
  refine Simulates.bind (Simulates.forM fun entry member => ?_) fun _ => ?_
  · refine followCandidate_simulates fun candidate open_case => ?_
    obtain ⟨info, listed, passive⟩ := settled entry.1 open_case
    rw [Std.ExtTreeMap.mem_toList_iff_getElem?_eq_some.mp member] at listed
    cases listed
    rw [passive] at candidate
    cases candidate
  · refine Simulates.get_bind fun c d agrees => ?_
    -- An account that is to be forgotten is not listed, so it is not disputed.
    have leavers : (d.allVotes.filter fun a _ => a ∉ votes) =
        c.allVotes.filter fun a _ => a ∉ votes := by
      refine Std.ExtTreeMap.ext_getElem? fun a => ?_
      rw [Std.ExtTreeMap.getElem?_filter', Std.ExtTreeMap.getElem?_filter']
      by_cases present : a ∈ votes
      · simp [present]
      · rw [agrees.memory a fun open_case => ?_]
        obtain ⟨info, listed, -⟩ := settled a open_case
        exact present (Std.ExtTreeMap.mem_iff_isSome_getElem?.mpr (by simp [listed]))
    rw [leavers]
    exact Simulates.forM (fun a _ => forget_simulates a) c d agrees

theorem updateLastIrreversibleBlock_simulates :
    Simulates (Agrees disputed) updateLastIrreversibleBlock updateLastIrreversibleBlock := by
  unfold updateLastIrreversibleBlock
  refine Simulates.bind (onDb_simulates _) fun producers => ?_
  cases confirmedByMost (producers.map (·.lastConfirmedBlockNum)) with
  | none => exact Simulates.throw _
  | some newLast =>
    refine Simulates.get_bind fun c d agrees => ?_
    rw [agrees.db]
    dsimp only
    split
    · refine Simulates.bind (onDb_simulates _) (fun _ => ?_) c d agrees
      refine Simulates.bind (fun _ _ agrees => ⟨rfl, agrees.db, agrees.memory⟩) fun _ => ?_
      exact onDb_simulates _
    · exact onDb_simulates _ c d agrees

theorem applyBlock_simulates (lastBlockId : Hash) (b : BlockHeader) {view : ParentView}
    (settled : ∀ a, disputed a → Bystander view.votes a) :
    Simulates (Agrees disputed) (applyBlock lastBlockId view b)
      (applyBlock lastBlockId view b) := by
  have opened : Simulates (Agrees disputed) (openBlock lastBlockId view b)
      (openBlock lastBlockId view b) :=
    Simulates.bind (onDb_simulates _) fun _ => Simulates.bind (onDb_simulates _) fun _ =>
      Simulates.bind (onDb_simulates _) fun _ => updatePvomiPerblock_simulates settled
  have confirmed : Simulates (Agrees disputed) (confirmBlock b) (confirmBlock b) :=
    Simulates.bind (onDb_simulates _) fun _ =>
      Simulates.bind updateLastIrreversibleBlock_simulates fun _ => onDb_simulates _
  exact Simulates.bind opened fun _ => Simulates.bind (onDb_simulates _) fun _ =>
    Simulates.bind (onDb_simulates _) fun _ => confirmed

theorem Agrees.accept {c d : Controller} {block : Applied} (agrees : Agrees disputed c d)
    (settled : ∀ a, disputed a → Bystander block.view.votes a) :
    (c.accept block = none ∧ d.accept block = none) ∨
      ∃ c' d', c.accept block = some c' ∧ d.accept block = some d' ∧ Agrees disputed c' d' := by
  have session : Agrees disputed { c with db := c.db.startUndoSession }
      { d with db := d.db.startUndoSession } := ⟨by rw [agrees.db], agrees.memory⟩
  have alike := applyBlock_simulates block.lastBlockId block.header settled _ _ session
  cases ran : (applyBlock block.lastBlockId block.view block.header).run
      { c with db := c.db.startUndoSession } with
  | ok u c' =>
    cases ran' : (applyBlock block.lastBlockId block.view block.header).run
        { d with db := d.db.startUndoSession } with
    | ok v d' =>
      rw [ran, ran'] at alike
      exact .inr ⟨c', d', accept_eq_some.mpr ran, accept_eq_some.mpr ran', alike.2⟩
    | error e d' =>
      rw [ran, ran'] at alike
      exact alike.elim
  | error e c' =>
    cases ran' : (applyBlock block.lastBlockId block.view block.header).run
        { d with db := d.db.startUndoSession } with
    | ok v d' =>
      rw [ran, ran'] at alike
      exact alike.elim
    | error f d' => exact .inl ⟨accept_eq_none ran, accept_eq_none ran'⟩

theorem Agrees.acceptAll {c d : Controller} (agrees : Agrees disputed c d)
    {blocks : List Applied}
    (settled : ∀ block ∈ blocks, ∀ a, disputed a → Bystander block.view.votes a) :
    (d.acceptAll blocks).map (·.db) = (c.acceptAll blocks).map (·.db) := by
  induction blocks generalizing c d with
  | nil => simp [Controller.acceptAll, agrees.db]
  | cons block rest ih =>
    unfold Controller.acceptAll
    rw [List.foldlM_cons, List.foldlM_cons]
    rcases agrees.accept (settled block List.mem_cons_self) with
      ⟨refused, refused'⟩ | ⟨c', d', accepted, accepted', agrees'⟩
    · rw [refused, refused']
    · rw [accepted, accepted']
      exact ih agrees' fun next member => settled next (List.mem_cons_of_mem block member)

end Simulation

theorem remembered_followAccount {now : UInt128} {info : VoteInfo}
    {kept after : Option U64 × Option Race} (candidate : info.isCandidate = true)
    (followed : followAccount now info kept = .ok after) : after.1 = some info.receivedVote := by
  cases followed_of_ok followed with
  | passed idle => exact absurd candidate (by simp [idle])
  | same _ known => exact known
  | entered | moved => rfl

theorem forgotten_dropAccount {kept after : Option U64 × Option Race}
    (dropped : dropAccount kept = .ok after) : after.1 = none := by
  rcases kept with ⟨_ | known, _ | race⟩
  · cases dropped
    rfl
  · cases dropped
    rfl
  · cases dropped
  · cases dropped
    rfl

/-- The votes rebuilt after a block differ from those remembered only for bystanders. -/
theorem bystander_of_disputed {c d : Controller} {head : Applied}
    (accepted : c.accept head = some d) (numbered : head.header.number ≠ 0) {a : Address}
    (differ : (initAllvotes head.header.number head.view.votes d).allVotes[a]? ≠ d.allVotes[a]?) :
    Bystander head.view.votes a := by
  have applied := accept_eq_some.mp accepted
  obtain ⟨_, m, opened, -⟩ := bind_eq_ok.mp applied
  obtain ⟨e, followed⟩ : ∃ e, (updatePvomiPerblock head.view.votes).run e = .ok () m := by
    obtain ⟨_, c1, -, rest⟩ := bind_eq_ok.mp opened
    obtain ⟨_, c2, -, rest⟩ := bind_eq_ok.mp rest
    obtain ⟨_, c3, -, followed⟩ := bind_eq_ok.mp rest
    exact ⟨c3, followed⟩
  have memory : d.allVotes = m.allVotes := applyBlock_sameMemory opened applied
  have outcome := ((updatePvomiPerblock_run e head.view.votes).2 m followed).2 a
  rw [initAllvotes, if_neg numbered, Std.ExtTreeMap.getElem?_map, memory] at differ
  unfold pvomiOutcome at outcome
  cases listed : head.view.votes[a]? with
  | none =>
    -- An account that is not listed is forgotten.
    rw [listed] at outcome differ
    exact absurd (forgotten_dropAccount outcome).symm differ
  | some info =>
    cases candidate : info.isCandidate with
    | false => exact ⟨info, listed, candidate⟩
    | true =>
      rw [listed] at outcome differ
      exact absurd (remembered_followAccount candidate outcome).symm differ

/-- At every point of every run, a restart rebuilds other votes than were remembered for bystanders
alone, and is unobservable as long as those accounts stay bystanders. -/
theorem restart_unobservable {initialProducers : List Address} {blocks : List Applied}
    {c : Controller} (replayed : replay initialProducers blocks = some c)
    (numbered : ∀ head, blocks.getLast? = some head → head.header.number ≠ 0) :
    (∀ a, (restart blocks c).allVotes[a]? ≠ c.allVotes[a]? →
      ∃ head, blocks.getLast? = some head ∧ Bystander head.view.votes a) ∧
    ∀ later : List Applied,
      (∀ block ∈ later, ∀ a, (restart blocks c).allVotes[a]? ≠ c.allVotes[a]? →
        Bystander block.view.votes a) →
      ∀ n, ((restart blocks c).acceptAll (later.take n)).map (·.db) =
        (c.acceptAll (later.take n)).map (·.db) := by
  constructor
  · intro a differ
    rcases List.eq_nil_or_concat blocks with rfl | ⟨earlier, head, rfl⟩
    · -- Nothing is remembered before the first block.
      rw [replay_nil] at replayed
      exact absurd (congrArg (·[a]?) (allVotes_initializeChain replayed).symm) differ
    · rw [List.concat_eq_append] at *
      obtain ⟨b, -, accepted⟩ := replay_concat.mp replayed
      have last : (earlier ++ [head]).getLast? = some head := by simp
      refine ⟨head, last, bystander_of_disputed accepted (numbered head last) ?_⟩
      rw [restart, last] at differ
      exact differ
  · intro later quiet n
    have agrees : Agrees (fun a => (restart blocks c).allVotes[a]? ≠ c.allVotes[a]?) c
        (restart blocks c) := by
      refine ⟨?_, fun a settled => not_not.mp settled⟩
      unfold restart
      split <;> rfl
    exact agrees.acceptAll fun block member => quiet block (List.mem_of_mem_take member)

/-- A vote table in which one account holds votes and may do more. -/
def holderTable (more : List VoteOp) : Std.ExtTreeMap Address VoteInfo :=
  votesAfter (State.funded 50 10000000000000000000) (.mortgage 500000000000000000 50 :: more)

/-- Two blocks after which an account is known to hold votes. -/
def holderBlocks : List Applied :=
  [.signed 100 1 1513580387 ∅, .signed 100 2 1513580447 (holderTable [])]

/-- While nobody stands for election, a restart goes unnoticed. -/
theorem restart_unobservable_holder : ∃ c, replay [100] holderBlocks = some c ∧
    (restart holderBlocks c).allVotes[(50 : Address)]? ≠ c.allVotes[(50 : Address)]? ∧
    (((restart holderBlocks c).acceptAll [.signed 100 3 1513580510 (holderTable [])]).map (·.db) =
      (c.acceptAll [.signed 100 3 1513580510 (holderTable [])]).map (·.db)) := by
  have evaluated : ((replay [100] holderBlocks).any fun c =>
      decide ((restart holderBlocks c).allVotes[(50 : Address)]? ≠
        c.allVotes[(50 : Address)]?)) = true := by
    decide +kernel
  obtain ⟨c, replayed, differ⟩ := (Option.any_eq_true _ _).mp evaluated
  have last : holderBlocks.getLast? = some (.signed 100 2 1513580447 (holderTable [])) := rfl
  have numbered : ∀ head, holderBlocks.getLast? = some head → head.header.number ≠ 0 := by
    intro head isLast
    rw [last] at isLast
    cases isLast
    decide
  obtain ⟨disputed, unobservable⟩ := restart_unobservable replayed numbered
  have quiet : ∀ block ∈ [Applied.signed 100 3 1513580510 (holderTable [])], ∀ a,
      (restart holderBlocks c).allVotes[a]? ≠ c.allVotes[a]? → Bystander block.view.votes a := by
    intro block member a unequal
    -- The table is still that of the head.
    obtain ⟨head, isLast, bystander⟩ := disputed a unequal
    rw [last] at isLast
    cases isLast
    rw [List.mem_singleton.mp member]
    exact bystander
  exact ⟨c, replayed, of_decide_eq_true differ, unobservable _ quiet 1⟩

/-- The block in whose parent the holder of votes has become a candidate. -/
def candidacyBlock : Applied :=
  .signed 100 3 1513580510
    (holderTable [.candidateRegister shortName shortUrl 50])

/-- An account that held votes before a restart and stands for election after it is missed. -/
theorem restart_misses_candidate : ∃ c d d', replay [100] holderBlocks = some c ∧
    c.accept candidacyBlock = some d ∧
    (restart holderBlocks c).accept candidacyBlock = some d' ∧
    (d.db.producerVotes.find 50).isSome ∧ d'.db.producerVotes.find 50 = none := by
  have evaluated : ((replay [100] holderBlocks).any fun c =>
      (c.accept candidacyBlock).any fun d =>
        ((restart holderBlocks c).accept candidacyBlock).any fun d' =>
          (d.db.producerVotes.find 50).isSome && (d'.db.producerVotes.find 50).isNone) = true := by
    decide +kernel
  obtain ⟨c, replayed, rest⟩ := (Option.any_eq_true _ _).mp evaluated
  obtain ⟨d, accepted, rest⟩ := (Option.any_eq_true _ _).mp rest
  obtain ⟨d', accepted', checked⟩ := (Option.any_eq_true _ _).mp rest
  rw [Bool.and_eq_true, Option.isNone_iff_eq_none] at checked
  exact ⟨c, d, d', replayed, accepted, accepted', checked.1, checked.2⟩

end Controller

end Etiam
