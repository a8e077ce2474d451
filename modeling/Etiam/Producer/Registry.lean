import Etiam.Producer.Moves

/-! What the race, the producers and the queue for proof of work know of each other. -/

namespace Etiam

open Exec Database
open Controller (Applied Joins)

namespace Index

variable {V : Type}

/-- A sorted part of an index has different owners. -/
theorem nodup_owners (ix : Index Address V) (p : Address × Stored V → Bool)
    (r : Address × Stored V → Address × Stored V → Prop) [DecidableRel r] :
    (((ix.entries.toList.filter p).insertionSort r).map (·.1)).Nodup := by
  -- Sorting and filtering leave each of the different keys once or not at all.
  have keys : (ix.entries.toList.map (·.1)).Nodup := by
    rw [Std.ExtTreeMap.map_fst_toList_eq_keys]
    exact Std.ExtTreeMap.nodup_keys
  have some_keys : ((ix.entries.toList.filter p).map (·.1)).Nodup :=
    keys.sublist (List.Sublist.map _ List.filter_sublist)
  exact ((List.perm_insertionSort r _).map (·.1)).nodup_iff.mpr some_keys

/-- Nobody is queued twice. -/
theorem nodup_byPow (ix : Index Address ProducerObject) : ix.byPow.Nodup :=
  ix.nodup_owners _ _

variable {ix : Index Address ProducerObject} {o : Address}

/-- Queues of the same accounts have one length. -/
theorem length_byPow_congr {ix' : Index Address ProducerObject}
    (same : ∀ a, ix'.Queued a ↔ ix.Queued a) : ix'.byPow.length = ix.byPow.length := by
  refine ((List.perm_ext_iff_of_nodup ix'.nodup_byPow ix.nodup_byPow).mpr fun a => ?_).length_eq
  rw [mem_byPow, mem_byPow, same]

/-- A queue without one of its accounts is shorter by one. -/
theorem length_byPow_leave {ix' : Index Address ProducerObject}
    (queued : ix.Queued o) (others : ∀ a, ix'.Queued a ↔ a ≠ o ∧ ix.Queued a) :
    ix.byPow.length = ix'.byPow.length + 1 := by
  have absent : o ∉ ix'.byPow := fun member => ((others o).mp (mem_byPow.mp member)).1 rfl
  have perm : ix.byPow.Perm (o :: ix'.byPow) := by
    refine (List.perm_ext_iff_of_nodup ix.nodup_byPow (ix'.nodup_byPow.cons absent)).mpr fun a => ?_
    rw [List.mem_cons, mem_byPow, mem_byPow, others]
    by_cases own : a = o
    · subst own
      simp [queued]
    · simp [own]
  exact perm.length_eq

/-- Where one producer is set, it alone may enter or leave the queue. -/
theorem queued_of_find {ix' : Index Address ProducerObject} {after : ProducerObject}
    (found : ∀ a, ix'.find a = if o = a then some after else ix.find a) (a : Address) :
    ix'.Queued a ↔ if o = a then after.powWorker ≠ 0 else ix.Queued a := by
  unfold Queued
  rw [found]
  split
  · simp
  · rfl

/-- Who is queued once a producer is changed. -/
theorem queued_modify {before : ProducerObject}
    (found : ix.find o = some before) (after : ProducerObject) (a : Address) :
    (ix.modify o after).Queued a ↔ if o = a then after.powWorker ≠ 0 else ix.Queued a :=
  queued_of_find (find_modify found after) a

/-- Who is queued once a producer is added. -/
theorem queued_emplace {made : Index Address ProducerObject}
    {after : ProducerObject} (created : ix.emplace o after = some made) (a : Address) :
    made.Queued a ↔ if o = a then after.powWorker ≠ 0 else ix.Queued a :=
  queued_of_find (find_emplace created) a

section Present

variable {ix made : Index Address V} {a : Address} {before after : V}

/-- A change adds no object and takes none away. -/
theorem present_modify (found : ix.find o = some before) :
    (ix.modify o after).find a ≠ none ↔ ix.find a ≠ none := by
  rw [find_modify found]
  split
  · next own => simp [← own, found]
  · rfl

/-- Creating an object adds it and takes none away. -/
theorem present_emplace (created : ix.emplace o after = some made) :
    made.find a ≠ none ↔ o = a ∨ ix.find a ≠ none := by
  rw [find_emplace created]
  split
  · next own => simp [own]
  · next other => simp [other]

end Present

end Index

namespace Move

variable {block : Applied} {s t : Database} {a : Address}

/-- Moves take no producer away. -/
theorem known (move : Move block s t) (present : s.producers.find a ≠ none) :
    t.producers.find a ≠ none := by
  cases move with
  | note found | leave found | enterQueued _ _ found =>
    exact (Index.present_modify found).mpr present
  | enterNew candidate created added => exact (Index.present_emplace added).mpr (.inr present)
  | enter | change | lose | remove | raceTime | head => exact present

/-- Only candidates become producers by moves. -/
theorem newcomer (move : Move block s t) (absent : s.producers.find a = none)
    (present : t.producers.find a ≠ none) : block.Candidate a := by
  cases move with
  | note found | leave found | enterQueued _ _ found =>
    exact absurd absent ((Index.present_modify found).mp present)
  | enterNew candidate created added =>
    obtain rfl | before := (Index.present_emplace added).mp present
    · exact candidate
    · exact absurd absent before
  | enter | change | lose | remove | raceTime | head => exact absurd absent present

/-- Only candidates enter the race, and they are producers then. -/
theorem racer (move : Move block s t) (absent : s.producerVotes.find a = none)
    (present : t.producerVotes.find a ≠ none) :
    block.Candidate a ∧ t.producers.find a ≠ none := by
  cases move with
  | enter candidate created found idle =>
    obtain rfl | before := (Index.present_emplace created).mp present
    · exact ⟨candidate, Option.ne_none_iff_exists'.mpr ⟨_, found⟩⟩
    · exact absurd absent before
  | enterNew candidate created added =>
    obtain rfl | before := (Index.present_emplace created).mp present
    · exact ⟨candidate, (Index.present_emplace added).mpr (.inl rfl)⟩
    · exact absurd absent before
  | enterQueued candidate created found queued =>
    obtain rfl | before := (Index.present_emplace created).mp present
    · refine ⟨candidate, (Index.present_modify found).mpr ?_⟩
      exact Option.ne_none_iff_exists'.mpr ⟨_, found⟩
    · exact absurd absent before
  | change found => exact absurd absent ((Index.present_modify found).mp present)
  | lose o =>
    rw [Index.find_lose, absent, ite_self] at present
    exact absurd rfl present
  | remove o =>
    rw [Index.find_remove, absent, ite_self] at present
    exact absurd rfl present
  | note | leave | raceTime | head => exact absurd absent present

end Move

namespace Controller.Joins

variable {worker : Address} {db db' : Database} (joined : Joins worker db db')

include joined

/-- A worker that joins has no votes. -/
theorem voteless : db.producerVotes.find worker = none := by
  cases joined with
  | known voted _ _ => exact voted
  | newcomer voted _ => exact voted

/-- A worker that joins was not queued. -/
theorem idle : ¬ db.producers.Queued worker := by
  cases joined with
  | known _ was idle =>
    rintro ⟨other, same, queued⟩
    rw [was] at same
    cases same
    exact queued idle
  | newcomer _ created =>
    rintro ⟨other, same, -⟩
    rw [(Index.emplace_eq_some_iff _ _ _).mp ⟨_, created⟩] at same
    cases same

/-- It is queued then, unless the places have wrapped around. -/
theorem queued (room : db.dynamic.totalPow + 1 ≠ 0) : db'.producers.Queued worker := by
  obtain ⟨producer, place, found⟩ := joined.find
  refine ⟨producer, (found worker).trans (if_pos rfl), ?_⟩
  rw [place]
  exact room

/-- The queue of the others stays as it is. -/
theorem others (a : Address) : db.producers.Queued a ↔ a ≠ worker ∧ db'.producers.Queued a := by
  obtain ⟨producer, -, found⟩ := joined.find
  by_cases own : a = worker
  · subst own
    simp [joined.idle]
  · rw [Index.Queued, Index.Queued, found a, if_neg (Ne.symm own)]
    simp [own]

end Controller.Joins

/-- The null address, which stands for an empty place, is neither a candidate nor a worker. It may
well have votes. -/
structure Genuine (block : Applied) : Prop where
  candidates : ¬ block.Candidate 0
  workers : ∀ op ∈ block.view.powOps, op.worker ≠ 0

/-- The queue is counted, and nobody in it has votes. -/
structure Tallied (db : Database) : Prop where
  exclusive : ∀ a, db.producers.Queued a → db.producerVotes.find a = none
  counted : db.dynamic.numPowWitnesses = BitVec.ofNat 32 db.producers.byPow.length

namespace Tallied

variable {block : Applied} {db db' : Database}

/-- The tally depends on the votes, the queue and the count only. -/
theorem congr (tallied : Tallied db)
    (votes : ∀ a, db.producerVotes.find a = none → db'.producerVotes.find a = none)
    (same : ∀ a, db'.producers.Queued a ↔ db.producers.Queued a)
    (counted : db'.dynamic.numPowWitnesses = db.dynamic.numPowWitnesses) : Tallied db' := by
  refine ⟨fun a queued => votes a (tallied.exclusive a ((same a).mp queued)), ?_⟩
  rw [counted, Index.length_byPow_congr same]
  exact tallied.counted

variable {a : Address}

section

variable (tallied : Tallied db)

include tallied

/-- A note on a producer keeps the tally. -/
theorem note {before after : ProducerObject} (found : db.producers.find a = some before)
    (place : after.powWorker = before.powWorker) :
    Tallied { db with producers := db.producers.modify a after } := by
  refine tallied.congr (fun _ absent => absent) (fun o => ?_) rfl
  change (db.producers.modify a after).Queued o ↔ db.producers.Queued o
  rw [Index.queued_modify found]
  split
  · next own =>
    subst own
    simp [Index.Queued, found, place]
  · rfl

/-- So does leaving the queue, which is counted. -/
theorem leave {producer : ProducerObject} (found : db.producers.find a = some producer)
    (queued : producer.powWorker ≠ 0) :
    Tallied { db with
      producers := db.producers.modify a { producer with powWorker := 0 }
      dynamicGlobalProperties := db.dynamicGlobalProperties.modify countLeave } := by
  have others : ∀ o, (db.producers.modify a { producer with powWorker := 0 }).Queued o ↔
      o ≠ a ∧ db.producers.Queued o := by
    intro o
    rw [Index.queued_modify found]
    split
    · next own => simp [own]
    · next other => simp [Ne.symm other]
  have shorter := Index.length_byPow_leave ⟨producer, found, queued⟩ others
  refine ⟨fun o still => tallied.exclusive o ((others o).mp still).2, ?_⟩
  change db.dynamic.numPowWitnesses - 1 = BitVec.ofNat 32
    (db.producers.modify a { producer with powWorker := 0 }).byPow.length
  rw [tallied.counted, shorter]
  bv_omega

/-- So does a new producer. -/
theorem addProducer {producers : Index Address ProducerObject}
    (added : db.producers.emplace a {} = some producers) : Tallied { db with producers } := by
  have absent := (Index.emplace_eq_some_iff db.producers a {}).mp ⟨producers, added⟩
  refine tallied.congr (fun _ absent => absent) (fun o => ?_) rfl
  change producers.Queued o ↔ db.producers.Queued o
  rw [Index.queued_emplace added]
  split
  · next own =>
    subst own
    simp [Index.Queued, absent]
  · rfl

/-- So does entering the race outside the queue. -/
theorem enter {race : Race} {made : Index Address Race} {producer : ProducerObject}
    (created : db.producerVotes.emplace a race = some made)
    (found : db.producers.find a = some producer) (idle : producer.powWorker = 0) :
    Tallied { db with producerVotes := made } := by
  refine ⟨fun o queued => ?_, tallied.counted⟩
  change made.find o = none
  rw [Index.find_emplace created, if_neg]
  · exact tallied.exclusive o queued
  · -- The account that enters is not the one that is queued.
    rintro rfl
    obtain ⟨other, same, place⟩ := queued
    rw [found] at same
    cases same
    exact place idle

/-- So does leaving the race. -/
theorem fewerVotes {votes : Index Address Race}
    (fewer : ∀ a, db.producerVotes.find a = none → votes.find a = none) :
    Tallied { db with producerVotes := votes } :=
  tallied.congr fewer (fun _ => Iff.rfl) rfl

end

/-- Every move keeps the tally. -/
theorem move (move : Move block db db') (tallied : Tallied db) : Tallied db' := by
  cases move with
  | note found place noted => exact tallied.note found place
  | leave found queued => exact tallied.leave found queued
  | enter candidate created found idle => exact tallied.enter created found idle
  | @enterNew a race made producers candidate created added =>
    -- The producer is there before the account enters the race.
    have known := tallied.addProducer added
    exact known.enter created ((Index.find_emplace added a).trans (if_pos rfl)) rfl
  | @enterQueued a race made producer candidate created found queued =>
    -- The account has left the queue before it enters the race.
    have left := tallied.leave found queued
    exact left.enter created ((Index.find_modify found _ a).trans (if_pos rfl)) rfl
  | @change a race found after =>
    exact tallied.fewerVotes fun o => not_imp_not.mp (Index.present_modify found).mp
  | lose a =>
    refine tallied.fewerVotes fun o absent => ?_
    rw [Index.find_lose, absent, ite_self]
  | remove a =>
    refine tallied.fewerVotes fun o absent => ?_
    rw [Index.find_remove, absent, ite_self]
  | raceTime | head =>
    exact tallied.congr (fun _ absent => absent) (fun _ => Iff.rfl) rfl

/-- So does a worker that joins. -/
theorem join {worker : Address} (joined : Joins worker db db')
    (room : db.dynamic.totalPow + 1 ≠ 0) (tallied : Tallied db) : Tallied db' := by
  have others := joined.others
  refine ⟨fun a now => ?_, ?_⟩
  · rw [joined.votes]
    by_cases own : a = worker
    · rw [own]
      exact joined.voteless
    · exact tallied.exclusive a ((others a).mpr ⟨own, now⟩)
  · rw [joined.dynamic, Index.length_byPow_leave (joined.queued room) others]
    change db.dynamic.numPowWitnesses + 1 = _
    rw [tallied.counted]
    bv_omega

end Tallied

/-- The race, the producers and the queue agree. -/
structure Registry (db : Database) : Prop where
  registered : ∀ a, db.producerVotes.find a ≠ none → db.producers.find a ≠ none
  exclusive : ∀ a, db.producers.Queued a → db.producerVotes.find a = none
  counted : db.dynamic.numPowWitnesses = BitVec.ofNat 32 db.producers.byPow.length
  nobody : db.producerVotes.find 0 = none ∧ db.producers.find 0 = none

namespace Registry

variable {block : Applied} {db db' : Database}

/-- A registry keeps the tally. -/
theorem tallied (registry : Registry db) : Tallied db := ⟨registry.exclusive, registry.counted⟩

/-- With the tally kept, only who is registered is left to show. -/
theorem of_tallied (tallied : Tallied db)
    (registered : ∀ a, db.producerVotes.find a ≠ none → db.producers.find a ≠ none)
    (nobody : db.producerVotes.find 0 = none ∧ db.producers.find 0 = none) : Registry db :=
  ⟨registered, tallied.exclusive, tallied.counted, nobody⟩

/-- The registry depends on what is found and on the count only. -/
theorem congr (registry : Registry db)
    (votes : ∀ a, db'.producerVotes.find a = db.producerVotes.find a)
    (producers : ∀ a, db'.producers.find a = db.producers.find a)
    (counted : db'.dynamic.numPowWitnesses = db.dynamic.numPowWitnesses) : Registry db' := by
  have same : ∀ a, db'.producers.Queued a ↔ db.producers.Queued a := by
    intro a
    rw [Index.Queued, producers a, Index.Queued]
  refine of_tallied (registry.tallied.congr (fun a absent => (votes a).trans absent) same counted)
    (fun a => ?_) ?_
  · rw [votes a, producers a]
    exact registry.registered a
  · rw [votes 0, producers 0]
    exact registry.nobody

/-- Every move of a genuine block keeps the registry. -/
theorem move (genuine : Genuine block) (move : Move block db db') (registry : Registry db) :
    Registry db' := by
  refine of_tallied (registry.tallied.move move) (fun a voted => ?_) ⟨?_, ?_⟩
  · by_cases absent : db.producerVotes.find a = none
    · exact (move.racer absent voted).2
    · exact move.known (registry.registered a absent)
  · by_contra voted
    exact genuine.candidates (move.racer registry.nobody.1 voted).1
  · by_contra present
    exact genuine.candidates (move.newcomer registry.nobody.2 present)

/-- Any number of moves keeps the registry. -/
theorem moves (genuine : Genuine block) (moves : Moves block db db') (registry : Registry db) :
    Registry db' :=
  Moves.keeps (fun _ _ step kept => kept.move genuine step) moves registry

/-- So does a worker that joins. -/
theorem join {worker : Address} (somebody : worker ≠ 0) (joined : Joins worker db db')
    (room : db.dynamic.totalPow + 1 ≠ 0) (registry : Registry db) : Registry db' := by
  obtain ⟨producer, -, found⟩ := joined.find
  refine of_tallied (registry.tallied.join joined room) (fun a ran => ?_) ⟨?_, ?_⟩
  · rw [found a]
    split
    · simp
    · rw [joined.votes] at ran
      exact registry.registered a ran
  · rw [joined.votes]
    exact registry.nobody.1
  · rw [found 0, if_neg somebody]
    exact registry.nobody.2

/-- So do the operations of a block, which use up as many places at most. -/
theorem admits {ops : List PowOperation} (workers : ∀ op ∈ ops, op.worker ≠ 0)
    (admits : Admits ops db db') (room : db.dynamic.totalPow.toNat + ops.length < 2 ^ 64)
    (registry : Registry db) : Registry db' ∧
      db'.dynamic.totalPow.toNat ≤ db.dynamic.totalPow.toNat + ops.length := by
  induction admits with
  | done => exact ⟨registry, Nat.le_add_right _ _⟩
  | pass _ ih =>
    rw [List.length_cons] at room ⊢
    obtain ⟨kept, bound⟩ := ih (fun op member => workers op (List.mem_cons_of_mem _ member))
      (by omega) registry
    exact ⟨kept, by omega⟩
  | @join op rest db mid db' first _ ih =>
    rw [List.length_cons] at room ⊢
    have next : mid.dynamic.totalPow = db.dynamic.totalPow + 1 := by
      rw [first.dynamic]
      rfl
    have total : mid.dynamic.totalPow.toNat = db.dynamic.totalPow.toNat + 1 := by
      rw [next]
      bv_omega
    obtain ⟨kept, bound⟩ := ih (fun op member => workers op (List.mem_cons_of_mem _ member))
      (by omega) (registry.join (workers op List.mem_cons_self) first (by bv_omega))
    exact ⟨kept, by omega⟩

end Registry

end Etiam
