import Etiam.Producer.Queue

/-! The loop that serves the queue for proof of work, step by step along the index it reorders. -/

namespace Etiam

open Exec Database
open Controller (Applied)

namespace Index

variable {ix : Index Address ProducerObject}

/-- One account is ahead of another in the queue. -/
def Ahead (ix : Index Address ProducerObject) (a b : Address) : Prop :=
  ∃ p q, ix.find a = some p ∧ ix.find b = some q ∧ p.powWorker < q.powWorker

/-- No two accounts have the same place in the queue. -/
def Spread (ix : Index Address ProducerObject) : Prop :=
  ∀ a b p q, ix.find a = some p → ix.find b = some q → p.powWorker ≠ 0 →
    p.powWorker = q.powWorker → a = b

theorem Ahead.asymm {a b : Address} (first : ix.Ahead a b) : ¬ ix.Ahead b a := by
  obtain ⟨p, q, foundA, foundB, lt⟩ := first
  rintro ⟨q', p', againB, againA, gt⟩
  rw [foundA, Option.some.injEq] at againA
  rw [foundB, Option.some.injEq] at againB
  subst againA againB
  exact absurd (BitVec.lt_trans lt gt) (BitVec.lt_irrefl _)

theorem pairwise_ahead (spread : ix.Spread) : ix.byPow.Pairwise ix.Ahead := by
  have sorted : ix.byPow.Pairwise fun a b =>
      ∃ p q, ix.find a = some p ∧ ix.find b = some q ∧ p.powWorker ≠ 0 ∧
        p.powWorker ≤ q.powWorker := by
    let before (p q : Address × Stored ProducerObject) : Prop :=
      p.2.value.powWorker ≤ q.2.value.powWorker
    have : Std.Total before := ⟨fun p q => BitVec.le_total _ _⟩
    have : IsTrans _ before := ⟨fun p q r => BitVec.le_trans⟩
    rw [byPow, List.pairwise_map]
    refine (List.pairwise_insertionSort before _).imp_of_mem fun {p q} first second le => ?_
    rw [List.mem_insertionSort, List.mem_filter, decide_eq_true_eq] at first second
    refine ⟨p.2.value, q.2.value, ?_, ?_, first.2, le⟩
    · rw [find, mem_toList_iff.mp first.1, Option.map_some]
    · rw [find, mem_toList_iff.mp second.1, Option.map_some]
  refine (sorted.and ix.nodup_byPow).imp ?_
  rintro a b ⟨⟨p, q, foundA, foundB, queued, le⟩, apart⟩
  -- Different accounts have different places.
  have different : p.powWorker ≠ q.powWorker := fun same =>
    apart (spread a b p q foundA foundB queued same)
  exact ⟨p, q, foundA, foundB, BitVec.lt_of_le_ne le different⟩

theorem byPow_eq (spread : ix.Spread) {queue : List Address} (ordered : queue.Pairwise ix.Ahead)
    (members : ∀ a, a ∈ queue ↔ ix.Queued a) : ix.byPow = queue := by
  have nodup : queue.Nodup := ordered.imp fun {a b} ahead same => by
    subst same
    exact ahead.asymm ahead
  have perm : ix.byPow.Perm queue := by
    refine (List.perm_ext_iff_of_nodup ix.nodup_byPow nodup).mpr fun a => ?_
    rw [mem_byPow, members]
  exact perm.eq_of_pairwise (fun a b _ _ ahead behind => absurd behind ahead.asymm)
    (pairwise_ahead spread) ordered

theorem byPow_leave (spread : ix.Spread) {owner : Address} {rest : List Address}
    {producer : ProducerObject} (first : ix.byPow = owner :: rest)
    (found : ix.find owner = some producer) :
    (ix.modify owner { producer with powWorker := 0 }).byPow = rest := by
  have ordered := pairwise_ahead spread
  have nodup := ix.nodup_byPow
  rw [first] at ordered nodup
  have other : ∀ a ∈ rest, owner ≠ a := fun a member same =>
    (List.nodup_cons.mp nodup).1 (same ▸ member)
  refine byPow_eq ?_ ((List.pairwise_cons.mp ordered).2.imp_of_mem fun {a b} inA inB ahead => ?_)
    fun a => ?_
  · intro a b p q foundA foundB queued same
    rw [find_modify found] at foundA foundB
    split at foundA
    · cases foundA
      exact absurd rfl queued
    · split at foundB
      · cases foundB
        exact absurd same queued
      · exact spread a b p q foundA foundB queued same
  · obtain ⟨p, q, foundA, foundB, lt⟩ := ahead
    refine ⟨p, q, ?_, ?_, lt⟩
    · rw [find_modify found, if_neg (other a inA), foundA]
    · rw [find_modify found, if_neg (other b inB), foundB]
  · rw [queued_modify found]
    have listed := @mem_byPow ix a
    rw [first, List.mem_cons] at listed
    split
    · next own =>
      subst own
      exact ⟨fun member => absurd rfl (other _ member), fun queued => absurd rfl queued⟩
    · next different =>
      rw [← listed]
      exact ⟨.inr, fun either => either.resolve_left (Ne.symm different)⟩

end Index

namespace Schedule

/-- The owner that follows in the index by places, where the owners without a place come first. -/
def powNext (idle : List Address) (ix : Index Address ProducerObject) (itr : Address) :
    Option Address :=
  ((idle ++ ix.byPow).dropWhile (· ≠ itr))[1]?

/-- Serve the queue from an iterator on, where a producer that loses its place moves behind the
others without one and takes the iterator along. Nothing is returned while the loop is still
running. -/
def powLoop (places : ℕ) : ℕ → Option Address → List Address → List Address → List Address →
    Database → Option (EStateM.Result Failure Database (List Address))
  | 0, _, _, _, _, _ => none
  | _ + 1, none, _, _, round, db => some (.ok round db)
  | fuel + 1, some owner, idle, processed, round, db =>
    if places ≤ round.length then some (.ok round db)
    else if owner ∈ processed then
      powLoop places fuel (powNext idle db.producers owner) idle processed round db
    else
      match (leavePow owner).run db with
      | .error e after => some (.error e after)
      | .ok _ after =>
        let idle := if owner ∈ idle then idle else idle ++ [owner]
        let next := powNext idle after.producers owner
        if (after.producerVotes.find owner).isNone then
          powLoop places fuel next idle (owner :: processed) (round ++ [owner]) after
        else powLoop places fuel next idle processed round after

/-- What the round takes from the queue: the first is dropped when too many are queued, and then
the loop serves the queue from its first place on. -/
def servePow (fuel : ℕ) (idle selected : List Address) (db : Database) :
    Option (EStateM.Result Failure Database (List Address)) :=
  match dropSurplusPow.run db with
  | .error e after => some (.error e after)
  | .ok _ after =>
    powLoop (powPlaces after.dynamic.headBlockNumber selected.length) fuel
      after.producers.byPow.head?
      (idle ++ db.producers.byPow.filter fun a => a ∉ after.producers.byPow) selected [] after

/-- The database after workers have left the queue, and the queue that is left. -/
structure Served (db : Database) (workers : List Address) (after : Database) : Prop where
  places : ∀ a, after.producers.find a = if a ∈ workers then
    (db.producers.find a).map fun p => { p with powWorker := 0 } else db.producers.find a
  queue : db.producers.byPow = workers ++ after.producers.byPow
  votes : after.producerVotes = db.producerVotes
  head : after.dynamic.headBlockNumber = db.dynamic.headBlockNumber

namespace Served

variable {db mid after : Database} {owner : Address} {workers : List Address}

theorem nil (db : Database) : Served db [] db where
  places a := by simp
  queue := rfl
  votes := rfl
  head := rfl

theorem leave {producer : ProducerObject} {rest : List Address} (spread : db.producers.Spread)
    (first : db.producers.byPow = owner :: rest)
    (found : db.producers.find owner = some producer) :
    Served db [owner] { db with
      producers := db.producers.modify owner { producer with powWorker := 0 }
      dynamicGlobalProperties := db.dynamicGlobalProperties.modify countLeave } where
  places a := by
    change (db.producers.modify owner { producer with powWorker := 0 }).find a = _
    rw [Index.find_modify found]
    by_cases own : a = owner
    · subst own
      rw [if_pos rfl, if_pos (List.mem_singleton_self a), found, Option.map_some]
    · rw [if_neg (Ne.symm own), if_neg fun member => own (List.mem_singleton.mp member)]
  queue := by
    change _ = [owner] ++ (db.producers.modify owner { producer with powWorker := 0 }).byPow
    rw [Index.byPow_leave spread first found, first, List.singleton_append]
  votes := rfl
  head := rfl

theorem append {others : List Address} (first : Served db workers mid)
    (second : Served mid others after) : Served db (workers ++ others) after where
  places a := by
    rw [second.places, first.places]
    by_cases early : a ∈ workers
    · by_cases late : a ∈ others
      · simp only [early, late, List.mem_append, if_true, true_or, Option.map_map]
        rfl
      · simp [early, late]
    · simp [early]
  queue := by rw [first.queue, second.queue, List.append_assoc]
  votes := second.votes.trans first.votes
  head := second.head.trans first.head

theorem queued (served : Served db workers after) {a : Address}
    (still : after.producers.Queued a) : a ∉ workers ∧ db.producers.Queued a := by
  obtain ⟨producer, found, place⟩ := still
  rw [served.places] at found
  split at found
  · obtain ⟨before, -, rfl⟩ := Option.map_eq_some_iff.mp found
    exact absurd rfl place
  · next stays => exact ⟨stays, producer, found, place⟩

end Served

theorem run_leavePow_eq {db : Database} {owner : Address} {producer : ProducerObject}
    (found : db.producers.find owner = some producer) :
    (leavePow owner).run db = .ok () { db with
      producers := db.producers.modify owner { producer with powWorker := 0 }
      dynamicGlobalProperties := db.dynamicGlobalProperties.modify countLeave } := by
  have changed : (modifyProducer owner fun p => { p with powWorker := 0 }).run db =
      .ok () { db with producers := db.producers.modify owner { producer with powWorker := 0 } } :=
    zoom_ok (Index.run_change found rfl)
  exact bind_ok changed

theorem powNext_moved {idle : List Address} {ix : Index Address ProducerObject} {owner : Address}
    (new : owner ∉ idle) : powNext (idle ++ [owner]) ix owner = ix.byPow.head? := by
  have others : ∀ a ∈ idle, (a ≠ owner : Bool) = true := fun a member => by
    simpa using fun same : a = owner => new (same ▸ member)
  rw [powNext, List.append_assoc, List.dropWhile_append_of_pos others, List.singleton_append,
    List.dropWhile_cons_of_neg (by simp)]
  cases ix.byPow <;> rfl

/-- From the first place on, the loop takes as many from the queue as there are places, and so does
the walk along the queue. -/
theorem serve_queue (places : ℕ) {limit : ℕ} {db : Database} (lined : Lined limit db)
    {processed : List Address} (new : ∀ a, db.producers.Queued a → a ∉ processed) :
    ∃ after, Served db (db.producers.byPow.take places) after ∧
      (∀ fuel, db.producers.byPow.length ≤ fuel →
        (takePow fuel places processed db.producers.byPow).run db =
          .ok (db.producers.byPow.take places) after) ∧
      ∀ fuel idle round, db.producers.byPow.length < fuel →
        (∀ a ∈ idle, ¬ db.producers.Queued a) →
        powLoop (round.length + places) fuel db.producers.byPow.head? idle processed round db =
          some (.ok (round ++ db.producers.byPow.take places) after) := by
  -- By induction on the places: the first of the queue leaves, and the rest is the queue.
  induction places generalizing db processed with
  | zero =>
    refine ⟨db, Served.nil db, fun fuel _ => ?_, fun fuel idle round enough _ => ?_⟩
    · cases fuel <;> rfl
    · obtain ⟨fuel, rfl⟩ := Nat.exists_eq_succ_of_ne_zero (by omega : fuel ≠ 0)
      cases db.producers.byPow.head? with
      | none => rw [powLoop, List.take_zero, List.append_nil]
      | some owner => rw [powLoop, if_pos (by omega), List.take_zero, List.append_nil]
  | succ places ih =>
    cases queue : db.producers.byPow with
    | nil =>
      refine ⟨db, Served.nil db, fun fuel _ => ?_, fun fuel idle round enough _ => ?_⟩
      · cases fuel <;> rfl
      · obtain ⟨fuel, rfl⟩ := Nat.exists_eq_succ_of_ne_zero (by omega : fuel ≠ 0)
        rw [List.head?_nil, powLoop, List.take_nil, List.append_nil]
    | cons owner rest =>
      have own : db.producers.Queued owner := by
        rw [← Index.mem_byPow, queue]
        exact List.mem_cons_self
      obtain ⟨producer, found, place⟩ := own
      have voteless := lined.exclusive owner ⟨producer, found, place⟩
      have first := Served.leave lined.different queue found
      have ran := run_leavePow_eq found
      have further : Lined limit { db with
          producers := db.producers.modify owner { producer with powWorker := 0 }
          dynamicGlobalProperties := db.dynamicGlobalProperties.modify countLeave } :=
        lined.move (@Move.leave (Applied.signed 1 1 1 ∅) _ _ _ found place)
      generalize left : ({ db with
        producers := db.producers.modify owner { producer with powWorker := 0 }
        dynamicGlobalProperties := db.dynamicGlobalProperties.modify countLeave } : Database) = mid
        at first ran further
      have shorter : mid.producers.byPow = rest := by
        have split := first.queue
        rw [queue, List.singleton_append, List.cons.injEq] at split
        exact split.2.symm
      have still : ∀ a, mid.producers.Queued a → a ≠ owner ∧ db.producers.Queued a := by
        intro a queued
        obtain ⟨other, before⟩ := first.queued queued
        exact ⟨fun same => other (List.mem_singleton.mpr same), before⟩
      obtain ⟨after, served, took, looped⟩ := @ih mid further (owner :: processed) (by
        intro a queued
        obtain ⟨other, before⟩ := still a queued
        rw [List.mem_cons, not_or]
        exact ⟨other, new a before⟩)
      rw [shorter] at served took looped
      refine ⟨after, ?_, fun fuel enough => ?_, fun fuel idle round enough apart => ?_⟩
      · rw [List.take_succ_cons]
        exact first.append served
      · rw [List.length_cons] at enough
        obtain ⟨fuel, rfl⟩ := Nat.exists_eq_succ_of_ne_zero (by omega : fuel ≠ 0)
        rw [takePow, if_neg (new owner ⟨producer, found, place⟩), bind_ok ran, run_get_bind,
          if_pos (by rw [first.votes, voteless]; rfl), shorter, bind_ok (took fuel (by omega))]
        rfl
      · rw [List.length_cons] at enough
        obtain ⟨fuel, rfl⟩ := Nat.exists_eq_succ_of_ne_zero (by omega : fuel ≠ 0)
        have outside : owner ∉ idle := fun member => apart owner member ⟨producer, found, place⟩
        rw [List.head?_cons, powLoop, if_neg (by omega),
          if_neg (new owner ⟨producer, found, place⟩), ran]
        dsimp only
        rw [if_neg outside, powNext_moved outside, if_pos (by rw [first.votes, voteless]; rfl),
          shorter]
        have going := looped fuel (idle ++ [owner]) (round ++ [owner]) (by omega) (by
          intro a member queued
          obtain ⟨other, before⟩ := still a queued
          rcases List.mem_append.mp member with old | same
          · exact apart a old before
          · exact other (List.mem_singleton.mp same))
        rw [List.length_append, List.length_singleton, List.append_assoc] at going
        rw [show round.length + (places + 1) = round.length + 1 + places by omega, going]
        rfl

/-- The workers that are dropped before the queue is served. -/
def surplus (db : Database) : List Address :=
  if Config.totalProducersPerRound < db.dynamic.numPowWitnesses.toNat then
    db.producers.byPow.take 1
  else []

theorem dropSurplusPow_served {limit : ℕ} {db : Database} (lined : Lined limit db) :
    ∃ after, dropSurplusPow.run db = .ok () after ∧ Served db (surplus db) after ∧
      Lined limit after := by
  unfold dropSurplusPow surplus
  rw [run_get_bind]
  split
  · cases queue : db.producers.byPow with
    | nil => exact ⟨db, rfl, Served.nil db, lined⟩
    | cons owner rest =>
      have own : db.producers.Queued owner := by
        rw [← Index.mem_byPow, queue]
        exact List.mem_cons_self
      obtain ⟨producer, found, place⟩ := own
      exact ⟨_, run_leavePow_eq found, Served.leave lined.different queue found,
        lined.move (@Move.leave (Applied.signed 1 1 1 ∅) _ _ _ found place)⟩
  · exact ⟨db, rfl, Served.nil db, lined⟩

end Schedule

namespace Controller

open Schedule

/-- The queue is served first in, first out: with the workers in the order of their places, the
loop returns the first ones that there are places for, after the surplus, and nobody else leaves. -/
theorem pow_served_in_order {initialProducers : List Address} {blocks : List Applied}
    {db : Database} (few : collected blocks < 2 ^ 64) (reached : Reached initialProducers blocks db)
    {idle : List Address} (apart : ∀ a ∈ idle, ¬ db.producers.Queued a) :
    db.producers.byPow.Pairwise db.producers.Ahead ∧
    (∀ a, a ∈ db.producers.byPow ↔ db.producers.Queued a) ∧
    ∃ bound workers after,
      workers = (db.producers.byPow.drop (surplus db).length).take
        (powPlaces db.dynamic.headBlockNumber (voted db ++ runnersup db).length) ∧
      (∀ fuel, bound ≤ fuel →
        servePow fuel idle (voted db ++ runnersup db) db = some (.ok workers after)) ∧
      Served db (surplus db ++ workers) after ∧
      (fillRound (voted db ++ runnersup db)).run db =
        .ok (voted db ++ runnersup db ++ workers ++ List.replicate (Config.totalProducersPerRound -
          (voted db ++ runnersup db ++ workers).length) 0) after := by
  have lined := phased_lined.reached (fun _ _ => trivial) few reached
  refine ⟨Index.pairwise_ahead lined.different, fun a => Index.mem_byPow, ?_⟩
  obtain ⟨mid, dropped, surplusServed, lined'⟩ := dropSurplusPow_served lined
  have rest : db.producers.byPow.drop (surplus db).length = mid.producers.byPow := by
    rw [surplusServed.queue, List.drop_left]
  have new : ∀ a, mid.producers.Queued a → a ∉ voted db ++ runnersup db := by
    intro a queued member
    have voteless := lined'.exclusive a queued
    rw [surplusServed.votes] at voteless
    exact (selected_spec db).2.1 a member voteless
  obtain ⟨after, served, took, looped⟩ := serve_queue
    (powPlaces db.dynamic.headBlockNumber (voted db ++ runnersup db).length) lined' new
  refine ⟨mid.producers.byPow.length + 1, _, after, rfl, fun fuel enough => ?_, ?_, ?_⟩
  · rw [servePow, dropped, rest]
    dsimp only
    rw [surplusServed.head]
    have ran := looped fuel (idle ++ db.producers.byPow.filter fun a => a ∉ mid.producers.byPow) []
      (by omega) (by
        intro a member queued
        rcases List.mem_append.mp member with old | left
        · exact apart a old (surplusServed.queued queued).2
        · exact (of_decide_eq_true (List.mem_filter.mp left).2) (Index.mem_byPow.mpr queued))
    rwa [List.length_nil, Nat.zero_add, List.nil_append] at ran
  · rw [rest]
    exact surplusServed.append served
  · unfold fillRound
    rw [bind_ok dropped, run_get_bind, rest]
    dsimp only
    rw [surplusServed.head, bind_ok (took _ (by nlinarith))]
    rfl

/-- The three workers of the first block are served in the order in which they joined. -/
theorem pow_served_in_order_three : ∃ c bound after, replay [100] [workedBlock] = some c ∧
    c.db.producers.byPow = [1, 2, 3] ∧
    (∀ fuel, bound ≤ fuel →
      servePow fuel [] (voted c.db ++ runnersup c.db) c.db = some (.ok [1, 2, 3] after)) ∧
    Served c.db [1, 2, 3] after := by
  have evaluated : ((replay [100] [workedBlock]).any fun c : Controller =>
      c.db.producers.byPow = [1, 2, 3] ∧ surplus c.db = [] ∧
      powPlaces c.db.dynamic.headBlockNumber (voted c.db ++ runnersup c.db).length = 21) =
        true := by
    decide +kernel
  obtain ⟨c, replayed, facts⟩ := (Option.any_eq_true _ _).mp evaluated
  obtain ⟨queue, kept, places⟩ := of_decide_eq_true facts
  obtain ⟨-, -, bound, workers, after, taken, returns, served, -⟩ :=
    @pow_served_in_order [100] [workedBlock] c.db (by decide) (.after replayed) [] (by simp)
  rw [queue, kept, places] at taken
  subst taken
  rw [kept] at served
  exact ⟨c, bound, after, replayed, queue, returns, served⟩

end Controller

end Etiam
