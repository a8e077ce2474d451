import Etiam.Producer.Controller

/-! The queue for proof of work: whom a block admits, and what the order of admission decides. -/

namespace Etiam

namespace Controller

open Database Exec

/-- A proof of work that admits its worker to the queue. -/
def Eligible (lastBlockId target : Hash) (db : Database) (op : PowOperation) : Prop :=
  op.blockId = lastBlockId ∧ op.work < target ∧ db.producerVotes.find op.worker = none ∧
    ((db.producers.find op.worker).all fun producer => producer.powWorker = 0) = true

instance (lastBlockId target : Hash) (db : Database) (op : PowOperation) :
    Decidable (Eligible lastBlockId target db op) :=
  inferInstanceAs (Decidable (_ ∧ _ ∧ _ ∧ _))

/-- The counters after one more worker has joined the queue. -/
def countJoin (d : DynamicGlobalPropertyObject) : DynamicGlobalPropertyObject :=
  { d with totalPow := d.totalPow + 1, numPowWitnesses := d.numPowWitnesses + 1 }

/-- One worker joins the end of the queue, as a producer that is known or as a new one. -/
inductive Joins (worker : Address) : Database → Database → Prop
  | known {db : Database} {producer : ProducerObject}
    (voted : db.producerVotes.find worker = none)
    (found : db.producers.find worker = some producer) (idle : producer.powWorker = 0) :
    Joins worker db { db with
      dynamicGlobalProperties := db.dynamicGlobalProperties.modify countJoin
      producers := db.producers.modify worker
        { producer with powWorker := db.dynamic.totalPow + 1 } }
  | newcomer {db : Database} {made : Index Address ProducerObject}
    (voted : db.producerVotes.find worker = none)
    (created : db.producers.emplace worker { powWorker := db.dynamic.totalPow + 1 } = some made) :
    Joins worker db { db with
      dynamicGlobalProperties := db.dynamicGlobalProperties.modify countJoin
      producers := made }

namespace Joins

variable {worker : Address} {db db' : Database}

theorem votes (joined : Joins worker db db') : db'.producerVotes = db.producerVotes := by
  cases joined <;> rfl

theorem dynamic (joined : Joins worker db db') : db'.dynamic = countJoin db.dynamic := by
  cases joined <;> rfl

theorem find (joined : Joins worker db db') : ∃ producer : ProducerObject,
    producer.powWorker = db.dynamic.totalPow + 1 ∧
    ∀ a, db'.producers.find a = if worker = a then some producer else db.producers.find a := by
  cases joined with
  | known voted found idle => exact ⟨_, rfl, fun a => Index.find_modify found _ a⟩
  | newcomer voted created => exact ⟨_, rfl, fun a => Index.find_emplace created a⟩

end Joins

variable {lastBlockId target : Hash}

variable {db : Database} {op : PowOperation} {ops : List PowOperation}

theorem admitWorker_passed (passed : ¬ Eligible lastBlockId target db op) :
    (admitWorker lastBlockId target op).run db = .ok () db := by
  unfold admitWorker
  rw [run_get_bind]
  by_cases fresh : op.blockId = lastBlockId
  · rw [if_neg (not_not.mpr fresh)]
    by_cases strong : op.work < target
    · rw [if_neg (BitVec.not_le.mpr strong)]
      cases voted : db.producerVotes.find op.worker with
      | some race => rfl
      | none =>
        rw [if_neg (by simp)]
        cases known : db.producers.find op.worker with
        | none => exact absurd ⟨fresh, strong, voted, by simp [known]⟩ passed
        | some producer =>
          by_cases idle : producer.powWorker = 0
          · exact absurd ⟨fresh, strong, voted, by simp [known, idle]⟩ passed
          · dsimp only
            rw [if_pos idle]
            rfl
    · rw [if_pos (BitVec.not_lt.mp strong)]
      rfl
  · rw [if_pos fresh]
    rfl

theorem admitWorker_eligible (eligible : Eligible lastBlockId target db op) :
    ∃ db', (admitWorker lastBlockId target op).run db = .ok () db' ∧ Joins op.worker db db' := by
  -- None of the checks passes the operation over.
  obtain ⟨fresh, strong, voted, idle⟩ := eligible
  unfold admitWorker
  rw [run_get_bind, if_neg (not_not.mpr fresh), if_neg (BitVec.not_le.mpr strong),
    if_neg (by simp [voted])]
  cases known : db.producers.find op.worker with
  | some producer =>
    rw [known] at idle
    have place : producer.powWorker = 0 := by simpa using idle
    dsimp only
    rw [if_neg (not_not.mpr place), modifyDynamic, run_modify_bind, run_get_bind]
    exact ⟨_, zoom_ok (Index.run_change known rfl), .known voted known place⟩
  | none =>
    obtain ⟨made, created⟩ := (Index.emplace_eq_some_iff db.producers op.worker
      { powWorker := db.dynamic.totalPow + 1 }).mpr known
    dsimp only
    rw [modifyDynamic, run_modify_bind, run_get_bind]
    exact ⟨_, zoom_ok (Index.run_create created), .newcomer voted created⟩

theorem Joins.eligible_iff {db' : Database} {worker : Address}
    (joined : Joins worker db db') (other : op.worker ≠ worker) :
    Eligible lastBlockId target db' op ↔ Eligible lastBlockId target db op := by
  -- Eligibility reads the worker's own objects only.
  obtain ⟨producer, -, found⟩ := joined.find
  unfold Eligible
  rw [joined.votes, found op.worker, if_neg (Ne.symm other)]

theorem forM_admitWorker_passed (passed : ∀ op ∈ ops, ¬ Eligible lastBlockId target db op) :
    (ops.forM (admitWorker lastBlockId target)).run db = .ok () db :=
  forM_idle fun op member => admitWorker_passed (passed op member)

theorem forM_admitWorker_single (distinct : (ops.map (·.worker)).Nodup) (member : op ∈ ops)
    (only : ∀ q ∈ ops, Eligible lastBlockId target db q → q = op) :
    (ops.forM (admitWorker lastBlockId target)).run db =
      (admitWorker lastBlockId target op).run db := by
  induction ops with
  | nil => cases member
  | cons first rest ih =>
    rw [List.map_cons, List.nodup_cons] at distinct
    rw [forM_cons]
    by_cases same : first = op
    · subst same
      by_cases eligible : Eligible lastBlockId target db first
      · obtain ⟨db', ran, joined⟩ := admitWorker_eligible eligible
        rw [bind_ok ran, ran]
        -- Nobody behind the one that joined was eligible, and its joining does not change that.
        refine forM_admitWorker_passed fun q behind chosen => ?_
        have other : q.worker ≠ first.worker := fun equal =>
          distinct.1 (equal ▸ List.mem_map_of_mem behind)
        have equal := only q (List.mem_cons_of_mem _ behind)
          ((joined.eligible_iff other).mp chosen)
        exact other (congrArg _ equal)
      · rw [bind_ok (admitWorker_passed eligible), admitWorker_passed eligible]
        refine forM_admitWorker_passed fun q behind chosen => eligible ?_
        exact only q (List.mem_cons_of_mem _ behind) chosen ▸ chosen
    · have behind : op ∈ rest := (List.mem_cons.mp member).resolve_left (Ne.symm same)
      have passed : ¬ Eligible lastBlockId target db first := fun eligible =>
        same (only first List.mem_cons_self eligible)
      rw [bind_ok (admitWorker_passed passed)]
      exact ih distinct.2 behind fun q further => only q (List.mem_cons_of_mem _ further)

/-- With at most one eligible operation, the order does not matter. -/
theorem forM_admitWorker_perm {order : List PowOperation}
    (distinct : (ops.map (·.worker)).Nodup) (reordered : order.Perm ops)
    (alone : ∀ p ∈ ops, ∀ q ∈ ops, Eligible lastBlockId target db p →
      Eligible lastBlockId target db q → p = q) :
    (order.forM (admitWorker lastBlockId target)).run db =
      (ops.forM (admitWorker lastBlockId target)).run db := by
  have distinct' := (reordered.map (·.worker)).nodup_iff.mpr distinct
  by_cases any : ∃ op ∈ ops, Eligible lastBlockId target db op
  · obtain ⟨op, member, eligible⟩ := any
    rw [forM_admitWorker_single distinct member fun q inOps chosen =>
        alone q inOps op member chosen eligible,
      forM_admitWorker_single distinct' (reordered.mem_iff.mpr member) fun q inOrder chosen =>
        alone q (reordered.mem_iff.mp inOrder) op member chosen eligible]
  · simp only [not_exists, not_and] at any
    rw [forM_admitWorker_passed any,
      forM_admitWorker_passed fun op member => any op (reordered.mem_iff.mp member)]

/-- The place in the queue of an account. -/
def powPlace (db : Database) (a : Address) : Option U64 :=
  (db.producers.find a).map (·.powWorker)

theorem powPlace_forM {db' : Database} {a : Address} (absent : a ∉ ops.map (·.worker))
    (ran : (ops.forM (admitWorker lastBlockId target)).run db = .ok () db') :
    powPlace db' a = powPlace db a := by
  refine forM_keeps (I := fun later => powPlace later a = powPlace db a) ?_ rfl ran
  intro op member s t u kept stepped
  have other : a ≠ op.worker := fun equal => absent (equal ▸ List.mem_map_of_mem member)
  by_cases eligible : Eligible lastBlockId target s op
  · obtain ⟨s', admitted, joined⟩ := admitWorker_eligible eligible
    rw [admitted] at stepped
    cases stepped
    obtain ⟨producer, -, found⟩ := joined.find
    rw [← kept, powPlace, powPlace, found a, if_neg (Ne.symm other)]
  · rw [admitWorker_passed eligible] at stepped
    cases stepped
    exact kept

theorem forM_admitWorker_returns (ops : List PowOperation) (db : Database) :
    ∃ db', (ops.forM (admitWorker lastBlockId target)).run db = .ok () db' := by
  induction ops generalizing db with
  | nil => exact ⟨db, rfl⟩
  | cons op rest ih =>
    rw [forM_cons]
    by_cases eligible : Eligible lastBlockId target db op
    · obtain ⟨next, ran, -⟩ := admitWorker_eligible eligible
      rw [bind_ok ran]
      exact ih next
    · rw [bind_ok (admitWorker_passed eligible)]
      exact ih db

/-- Of two eligible workers, the first to be looked at gets the place before the other. -/
theorem powPlace_first_two {p q : PowOperation} {rest : List PowOperation}
    (distinct : ((p :: q :: rest).map (·.worker)).Nodup)
    (first : Eligible lastBlockId target db p) (second : Eligible lastBlockId target db q) :
    ∃ db', ((p :: q :: rest).forM (admitWorker lastBlockId target)).run db = .ok () db' ∧
      powPlace db' p.worker = some (db.dynamic.totalPow + 1) ∧
      powPlace db' q.worker = some (db.dynamic.totalPow + 1 + 1) := by
  simp only [List.map_cons, List.nodup_cons, List.mem_cons, not_or] at distinct
  obtain ⟨⟨different, absent⟩, absent', -⟩ := distinct
  obtain ⟨db₁, ran₁, joined₁⟩ := admitWorker_eligible first
  obtain ⟨db₂, ran₂, joined₂⟩ :=
    admitWorker_eligible ((joined₁.eligible_iff (Ne.symm different)).mpr second)
  obtain ⟨db₃, ran₃⟩ := @forM_admitWorker_returns lastBlockId target rest db₂
  refine ⟨db₃, ?_, ?_, ?_⟩
  · rw [forM_cons, bind_ok ran₁, forM_cons, bind_ok ran₂, ran₃]
  · obtain ⟨producer, place, found⟩ := joined₁.find
    obtain ⟨_, -, found'⟩ := joined₂.find
    rw [powPlace_forM absent ran₃, powPlace, found', if_neg (Ne.symm different), found, if_pos rfl,
      Option.map_some, place]
  · obtain ⟨producer, place, found⟩ := joined₂.find
    rw [powPlace_forM absent' ran₃, powPlace, found, if_pos rfl, Option.map_some, place,
      joined₁.dynamic]
    rfl

/-- The order of the operations does not matter exactly when at most one of them is eligible. -/
theorem updatePow_order_iff (lastBlockId : Hash) (db : Database) (ops : List PowOperation)
    (distinct : (ops.map (·.worker)).Nodup) :
    (∀ order, order.Perm ops → (updatePow lastBlockId order).run db =
        (updatePow lastBlockId ops).run db) ↔
      ∀ p ∈ ops, ∀ q ∈ ops, Eligible lastBlockId (getPowTarget db) db p →
        Eligible lastBlockId (getPowTarget db) db q → p = q := by
  constructor
  · intro same p inOps q inOps' first second
    by_contra different
    -- Bring the two to the front, once in each order.
    obtain ⟨rest, front⟩ : ∃ rest, ops.Perm (p :: q :: rest) := by
      have behind : q ∈ ops.erase p := (List.mem_erase_of_ne (Ne.symm different)).mpr inOps'
      exact ⟨(ops.erase p).erase q, (List.perm_cons_erase inOps).trans
        ((List.perm_cons_erase behind).cons p)⟩
    have front' : ops.Perm (q :: p :: rest) := front.trans (List.Perm.swap q p rest)
    obtain ⟨db₁, ran₁, place₁, -⟩ := powPlace_first_two
      ((front.map (·.worker)).nodup_iff.mp distinct) first second
    obtain ⟨db₂, ran₂, -, place₂⟩ := powPlace_first_two
      ((front'.map (·.worker)).nodup_iff.mp distinct) second first
    have agree := (same _ front.symm).trans (same _ front'.symm).symm
    rw [updatePow, updatePow, run_get_bind, run_get_bind, ran₁, ran₂] at agree
    cases agree
    -- The worker of the first operation would have two places at once.
    rw [place₁, Option.some.injEq] at place₂
    bv_omega
  · intro alone order reordered
    rw [updatePow, updatePow, run_get_bind, run_get_bind]
    exact forM_admitWorker_perm distinct reordered alone

/-- A proof of work by an account for the block before the start of the chain, with a work that is
not zero, as every stored one, and below every target of a short queue. -/
def easyWork (worker : Address) : PowOperation where
  worker
  blockId := 0
  work := 1

/-- Of the first producer and a worker the worker alone is eligible at the start of a chain, and
either order gives the same. -/
theorem updatePow_order_iff_pair : ∃ c, initializeChain [100] = some c ∧
    Eligible 0 (getPowTarget c.db) c.db (easyWork 1) ∧
    ¬ Eligible 0 (getPowTarget c.db) c.db (easyWork 100) ∧
    (updatePow 0 [easyWork 100, easyWork 1]).run c.db =
      (updatePow 0 [easyWork 1, easyWork 100]).run c.db := by
  have started : (initializeChain [100]).any (fun c =>
      Eligible 0 (getPowTarget c.db) c.db (easyWork 1) ∧
      ¬ Eligible 0 (getPowTarget c.db) c.db (easyWork 100)) = true := by
    decide +kernel
  obtain ⟨c, start, holds⟩ := (Option.any_eq_true _ _).mp started
  obtain ⟨first, second⟩ := of_decide_eq_true holds
  have chosen : ∀ p ∈ [easyWork 1, easyWork 100],
      Eligible 0 (getPowTarget c.db) c.db p → p = easyWork 1 := by
    intro p inOps eligible
    rcases List.mem_pair.mp inOps with rfl | rfl
    · rfl
    · exact absurd eligible second
  refine ⟨c, start, first, second, ?_⟩
  refine (updatePow_order_iff 0 c.db [easyWork 1, easyWork 100] (by decide)).mpr ?_ _
    (List.Perm.swap _ _ _)
  intro p inOps q inOps' eligible eligible'
  rw [chosen p inOps eligible, chosen q inOps' eligible']

/-- Two workers that are both admitted at the start of a chain have places by the order. -/
theorem updatePow_order_matters : ∃ c, initializeChain [100] = some c ∧
    [easyWork 2, easyWork 1].Perm [easyWork 1, easyWork 2] ∧
    powPlace (final ((updatePow 0 [easyWork 1, easyWork 2]).run c.db)) 1 = some 1 ∧
    powPlace (final ((updatePow 0 [easyWork 2, easyWork 1]).run c.db)) 1 = some 2 := by
  have started : (initializeChain [100]).any (fun c =>
      powPlace (final ((updatePow 0 [easyWork 1, easyWork 2]).run c.db)) 1 = some 1 ∧
      powPlace (final ((updatePow 0 [easyWork 2, easyWork 1]).run c.db)) 1 = some 2) = true := by
    decide +kernel
  obtain ⟨c, start, places⟩ := (Option.any_eq_true _ _).mp started
  exact ⟨c, start, List.Perm.swap _ _ _, of_decide_eq_true places⟩

end Controller

end Etiam
