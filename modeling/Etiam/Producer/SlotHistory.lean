import Etiam.Producer.Irreversible

/-! The slots of a run: which were filled, who missed the others, and when each producer signed. -/

namespace Etiam

open Exec Database

/-- What is counted of the producer of an account, nothing where there is none. -/
def Database.record (db : Database) (a : Address) : U64 × BitVec 64 :=
  ((db.producers.find a).map (·.record)).getD (0, 0)

theorem Database.record_modify {db : Database} {a : Address} {before : ProducerObject}
    (found : db.producers.find a = some before) (after : ProducerObject) (other : Address) :
    { db with producers := db.producers.modify a after }.record other =
      if a = other then after.record else db.record other := by
  unfold record
  dsimp only
  rw [Index.find_modify found]
  split <;> rfl

theorem Database.modifyProducer_eq_ok {a : Address} {f : ProducerObject → ProducerObject}
    {db db' : Database} : (modifyProducer a f).run db = .ok () db' ↔
      ∃ producer, db.producers.find a = some producer ∧
        db' = { db with producers := db.producers.modify a (f producer) } := by
  cases found : db.producers.find a with
  | none =>
    have failed : (modifyProducer a f).run db = .error .outOfRange db :=
      zoom_error (Index.run_change_none found)
    simp [failed]
  | some producer =>
    have changed : (modifyProducer a f).run db =
        .ok () { db with producers := db.producers.modify a (f producer) } :=
      zoom_ok (Index.run_change found rfl)
    simp [changed, eq_comm]

/-- Nothing is counted of a producer, and neither the clock nor the bitmap of slots moves. -/
structure SameCounts (before after : Database) : Prop where
  record : ∀ a, after.record a = before.record a
  clock : SameClock before after
  filled : after.dynamic.recentSlotsFilled = before.dynamic.recentSlotsFilled

theorem SameCounts.refl (db : Database) : SameCounts db db := ⟨fun _ => rfl, rfl, rfl⟩

/-- Only missed slots and signatures are counted, and only a new head moves the clock. -/
theorem trackFrame_sameCounts : TrackFrame SameCounts where
  refl := SameCounts.refl
  trans _ _ _ first second :=
    ⟨fun a => (second.record a).trans (first.record a), Eq.trans second.clock first.clock,
      second.filled.trans first.filled⟩
  note a f same := Within.zoom fun db => by
    -- The change leaves what is counted, and without a producer there is no change.
    cases found : db.producers.find a with
    | none =>
      rw [Index.run_change_none found]
      exact SameCounts.refl db
    | some producer =>
      have changed : (Index.change a fun p => .ok (f p)).run db.producers =
          .ok () (db.producers.modify a (f producer)) := Index.run_change found rfl
      rw [changed]
      refine ⟨fun other => ?_, rfl, rfl⟩
      change { db with producers := db.producers.modify a (f producer) }.record other = _
      rw [record_modify found]
      split
      · next equal =>
        rw [same, ← equal, Database.record, found]
        rfl
      · rfl
  addProducer a place := Within.zoom fun db => by
    cases created : db.producers.emplace a { powWorker := place } with
    | none =>
      rw [Index.run_create_taken created]
      exact SameCounts.refl db
    | some made =>
      rw [Index.run_create created]
      refine ⟨fun other => ?_, rfl, rfl⟩
      -- Nothing was counted of the account before.
      have free := (Index.emplace_eq_some_iff db.producers a _).mp ⟨made, created⟩
      change { db with producers := made }.record other = db.record other
      unfold Database.record
      dsimp only
      rw [Index.find_emplace created]
      split
      · next equal =>
        rw [← equal, free]
        rfl
      · rfl
  global _ := fun _ => ⟨fun _ => rfl, rfl, rfl⟩
  queue _ same := fun db => ⟨fun _ => rfl, (same db.dynamic).1, (same db.dynamic).2⟩
  enter _ _ := Within.zoom fun _ => ⟨fun _ => rfl, rfl, rfl⟩
  change _ _ := Within.zoom fun _ => ⟨fun _ => rfl, rfl, rfl⟩
  leave _ := Within.zoom fun _ => ⟨fun _ => rfl, rfl, rfl⟩
  time _ := fun _ => ⟨fun _ => rfl, rfl, rfl⟩

namespace Controller

/-- A bit of the shifted bitmap: missed slots are empty, the head before them was filled. -/
theorem getLsbD_shiftSlots (filled : U64) (missed : U32) {i : ℕ} (within : i < 64) :
    (shiftSlots filled missed).getLsbD i = true ↔
      i = missed.toNat ∨ missed.toNat < i ∧ filled.getLsbD (i - missed.toNat - 1) = true := by
  have concat : filled <<< 1 + 1 = filled.shiftConcat true := by
    refine BitVec.eq_of_toNat_eq ?_
    simp [BitVec.toNat_shiftConcat]
  unfold shiftSlots
  generalize missed.toNat = count
  split
  · rw [concat, BitVec.getLsbD_shiftLeft, BitVec.getLsbD_shiftConcat]
    -- Below the last head there are only missed slots, above it is what was there before.
    rcases lt_trichotomy i count with below | same | above
    · simp [below, below.ne, below.not_gt]
    · subst same
      simp [within]
    · have positive : i - count ≠ 0 := by omega
      have inside : i - count < 64 := by omega
      simp [above, above.ne', above.not_gt, within, positive, inside]
  · -- So many slots were missed that none in the bitmap was filled.
    simp only [BitVec.ofNat_eq_ofNat, BitVec.getLsbD_zero, Bool.false_eq_true, false_iff]
    omega

/-- A slot after the head is one that an account missed, unless the account signs the block. -/
def Charged (db : Database) (b : BlockHeader) (a : Address) (i : ℕ) : Prop :=
  db.getScheduledProducer (BitVec.ofNat 32 (i + 1)) = a ∧ a ≠ 0 ∧ a ≠ b.producer

instance (db : Database) (b : BlockHeader) (a : Address) (i : ℕ) : Decidable (Charged db b a i) :=
  inferInstanceAs (Decidable (_ ∧ _))

/-- Count one slot that passed without a block. -/
def countMissedSlot (b : BlockHeader) (i : ℕ) : DbM Unit := do
  let db ← get
  let name := db.getScheduledProducer (BitVec.ofNat 32 (i + 1))
  if name ≠ 0 then
    let _ ← onProducers (Index.get name)
    if name ≠ b.producer then
      modifyProducer name fun p => { p with totalMissed := p.totalMissed + 1 }

theorem countMissed_succ (b : BlockHeader) (missed : ℕ) :
    countMissed b (missed + 1) = countMissed b missed >>= fun _ => countMissedSlot b missed := by
  unfold countMissed
  simp only [List.range_succ, List.forM_eq_forM, List.forM_append, List.forM_cons, List.forM_nil]
  refine congrArg _ (funext fun _ => ?_)
  exact bind_pure (m := DbM) (countMissedSlot b missed)

variable {b : BlockHeader} {db db' : Database}

theorem counts_countMissedSlot {i : ℕ} (ran : (countMissedSlot b i).run db = .ok () db') :
    db'.dynamicGlobalProperties = db.dynamicGlobalProperties ∧
    db'.globalProperties = db.globalProperties ∧
    ∀ a, db'.record a = ((db.record a).1,
      (db.record a).2 + if Charged db b a i then 1 else 0) := by
  unfold countMissedSlot at ran
  rw [run_get_bind] at ran
  dsimp only at ran
  by_cases empty : db.getScheduledProducer (BitVec.ofNat 32 (i + 1)) = 0
  · -- Nobody's turn.
    rw [if_neg (not_not.mpr empty)] at ran
    cases ran
    refine ⟨rfl, rfl, fun a => ?_⟩
    have free : ¬ Charged db b a i := fun charged => charged.2.1 (charged.1.symm.trans empty)
    rw [if_neg free]
    exact Prod.ext rfl (BitVec.add_zero _).symm
  · rw [if_pos empty] at ran
    obtain ⟨producer, mid, read, rest⟩ := bind_eq_ok.mp ran
    generalize turn : db.getScheduledProducer (BitVec.ofNat 32 (i + 1)) = name at *
    -- The producer must be there to be asked whether it signed.
    cases found : db.producers.find name with
    | none =>
      have failed : (onProducers (Index.get name)).run db = .error .outOfRange db :=
        zoom_error (Index.run_get_none found)
      rw [failed] at read
      cases read
    | some known =>
      have got : (onProducers (Index.get name)).run db = .ok known db :=
        zoom_ok (Index.run_get found)
      rw [got] at read
      cases read
      by_cases own : name = b.producer
      · rw [if_neg (not_not.mpr own)] at rest
        cases rest
        refine ⟨rfl, rfl, fun a => ?_⟩
        have free : ¬ Charged db b a i := by
          rintro ⟨whose, -, other⟩
          exact other (whose.symm.trans (turn.trans own))
        rw [if_neg free]
        exact Prod.ext rfl (BitVec.add_zero _).symm
      · rw [if_pos own] at rest
        obtain ⟨_, again, rfl⟩ := modifyProducer_eq_ok.mp rest
        cases found.symm.trans again
        refine ⟨rfl, rfl, fun a => ?_⟩
        rw [record_modify found]
        by_cases same : name = a
        · have charged : Charged db b a i := ⟨turn.trans same, same ▸ empty, same ▸ own⟩
          rw [if_pos same, if_pos charged, ← same, Database.record, found]
          rfl
        · have free : ¬ Charged db b a i := fun charged => same (turn.symm.trans charged.1)
          rw [if_neg same, if_neg free]
          exact Prod.ext rfl (BitVec.add_zero _).symm

/-- What counting the missed slots does: each adds one to the producer whose turn it was. -/
theorem counts_countMissed {missed : ℕ} (ran : (countMissed b missed).run db = .ok () db') :
    db'.dynamicGlobalProperties = db.dynamicGlobalProperties ∧
    db'.globalProperties = db.globalProperties ∧
    ∀ a, db'.record a = ((db.record a).1, (db.record a).2 +
      BitVec.ofNat 64 ((List.range missed).countP fun i => Charged db b a i)) := by
  induction missed generalizing db' with
  | zero =>
    cases ran
    refine ⟨rfl, rfl, fun a => ?_⟩
    simp
  | succ missed ih =>
    rw [countMissed_succ] at ran
    obtain ⟨_, mid, first, last⟩ := bind_eq_ok.mp ran
    obtain ⟨dynamic, global, counted⟩ := ih first
    obtain ⟨dynamic', global', counted'⟩ := counts_countMissedSlot last
    refine ⟨dynamic'.trans dynamic, global'.trans global, fun a => ?_⟩
    -- The counts so far have not moved the clock, so whose turn it is can be asked before them.
    have turn : Charged mid b a missed ↔ Charged db b a missed := by
      simp only [Charged, getScheduledProducer, Database.dynamic, Database.global, dynamic, global]
    rw [counted', counted, List.range_succ, List.countP_append, List.countP_singleton]
    by_cases charged : Charged db b a missed
    · rw [if_pos (turn.mpr charged), if_pos (decide_eq_true charged), BitVec.ofNat_add,
        BitVec.add_assoc]
      rfl
    · rw [if_neg (fun now => charged (turn.mp now)), if_neg (by simpa using charged),
        BitVec.ofNat_add, BitVec.add_assoc]
      rfl

theorem counts_updateGlobalDynamicData (ran : (updateGlobalDynamicData b).run db = .ok () db') :
    db'.dynamic.recentSlotsFilled =
      shiftSlots db.dynamic.recentSlotsFilled (missedBlocks db b) ∧
    ∀ a, db'.record a = ((db.record a).1, (db.record a).2 +
      BitVec.ofNat 64 ((List.range (missedBlocks db b).toNat).countP
        fun i => Charged db b a i)) := by
  unfold updateGlobalDynamicData at ran
  rw [run_get_bind] at ran
  obtain ⟨_, counted, counting, moved⟩ := bind_eq_ok.mp ran
  obtain ⟨dynamic, -, records⟩ := counts_countMissed counting
  cases moved
  refine ⟨?_, records⟩
  change shiftSlots counted.dynamicGlobalProperties.value.recentSlotsFilled _ = _
  rw [dynamic]
  rfl

theorem record_updateSigningProducer (ran : (updateSigningProducer b).run db = .ok () db') :
    db'.producers.find b.producer ≠ none ∧ db'.dynamic = db.dynamic ∧ ∀ a, db'.record a =
      (if b.producer = a then
        db.dynamic.currentAbsoluteSlot + (db.getSlotAtTime b.time).setWidth 64
      else (db.record a).1, (db.record a).2) := by
  unfold updateSigningProducer at ran
  rw [run_get_bind] at ran
  dsimp only at ran
  obtain ⟨producer, found, rfl⟩ := modifyProducer_eq_ok.mp ran
  refine ⟨?_, rfl, fun a => ?_⟩
  · change (db.producers.modify b.producer _).find b.producer ≠ none
    rw [Index.find_modify found, if_pos rfl]
    exact Option.some_ne_none _
  · rw [record_modify found]
    by_cases own : b.producer = a
    · rw [if_pos own, if_pos own, ← own, Database.record, found]
      rfl
    · rw [if_neg own, if_neg own]

theorem sameCounts_settleDb (newLast : U32) (db : Database) :
    SameCounts db (settleDb newLast db) := by
  unfold settleDb
  split <;> exact ⟨fun _ => rfl, rfl, rfl⟩

theorem charged_congr (clock : SameClock db db')
    (global : db'.global = db.global) (b : BlockHeader) (a : Address) (i : ℕ) :
    Charged db' b a i ↔ Charged db b a i := by
  have slot : db'.dynamic.currentAbsoluteSlot = db.dynamic.currentAbsoluteSlot :=
    congrArg (·.2.2) clock
  simp only [Charged, getScheduledProducer, slot, global]

theorem getSlotAtTime_congr (clock : SameClock db db') (time : U32) :
    db'.getSlotAtTime time = db.getSlotAtTime time := by
  simp only [SameClock, DynamicGlobalPropertyObject.clock, Prod.mk.injEq] at clock
  simp only [getSlotAtTime, getSlotTime, clock.1, clock.2.1]

theorem counts_accept {c d : Controller} {block : Applied} (accepted : c.accept block = some d) :
    d.db.dynamic.recentSlotsFilled =
      shiftSlots c.db.dynamic.recentSlotsFilled (missedBlocks c.db block.header) ∧
    (∀ a, (d.db.record a).2 = (c.db.record a).2 + BitVec.ofNat 64
      ((List.range (missedBlocks c.db block.header).toNat).countP
        fun i => Charged c.db block.header a i)) ∧
    (d.db.producers.find block.header.producer).map (·.lastAslot) =
      some (d.db.dynamic.currentAbsoluteSlot +
        (d.db.getSlotAtTime block.header.time).setWidth 64) := by
  obtain ⟨m, headed, chosen, signed, newLast, opened, headedRan, choice, signedRan, -, rfl⟩ :=
    accept_steps accepted
  -- Before the new head and after it, only the counts of this block are made.
  have opening : SameCounts c.db m.db := by
    have within := trackFrame_sameCounts.openBlock block.lastBlockId block.view block.header
      { c with db := c.db.startUndoSession }
    rw [opened] at within
    exact ⟨within.record, within.clock, within.filled⟩
  have choosing : SameCounts headed chosen :=
    (trackFrame_sameCounts.updateGlobalProperties trackFrame_sameCounts.advanceRace _).of_ok choice
  have settling := sameCounts_settleDb newLast signed
  obtain ⟨known, dynamic, signing⟩ := record_updateSigningProducer signedRan
  obtain ⟨shifted, missing⟩ := counts_updateGlobalDynamicData headedRan
  obtain ⟨checked, queued, check, admitted, follow⟩ := openBlock_phases opened
  have global : m.db.global = c.db.global :=
    follow.global.trans (admitted.global.trans check.global)
  rw [missedBlocks_congr opening.clock] at shifted missing
  simp only [charged_congr opening.clock global] at missing
  have clock : SameClock chosen (settleDb newLast signed) := by
    rw [SameClock, settling.clock, dynamic]
  simp only [db_settle]
  refine ⟨?_, fun a => ?_, ?_⟩
  · rw [settling.filled, dynamic, choosing.filled, shifted, opening.filled]
  · rw [settling.record, signing, choosing.record, missing, opening.record]
  · obtain ⟨producer, found⟩ := Option.ne_none_iff_exists'.mp known
    have noted := congrArg Prod.fst (signing block.header.producer)
    rw [if_pos rfl, Database.record, found] at noted
    have slot : (settleDb newLast signed).dynamic.currentAbsoluteSlot =
        chosen.dynamic.currentAbsoluteSlot := congrArg (·.2.2) clock
    rw [producers_settleDb, found, slot, getSlotAtTime_congr clock]
    exact congrArg some noted

/-- The period of one slot's length in which a block lies. -/
def Applied.period (block : Applied) : ℕ := block.header.time.toNat / Config.blockIntervalSeconds

/-- Every block after the first lies in a later slot than the block before it. -/
def Ascending (blocks : List Applied) : Prop :=
  blocks.IsChain fun earlier later => earlier.period < later.period

instance (blocks : List Applied) : Decidable (Ascending blocks) :=
  inferInstanceAs (Decidable (blocks.IsChain _))

/-- The slot of the last block. -/
def lastPeriod (blocks : List Applied) : ℕ := (blocks.getLast?.map (·.period)).getD 0

/-- A block lies in the slot, or all blocks lie after it. -/
def Filled (blocks : List Applied) (slot : ℕ) : Prop :=
  (∃ block ∈ blocks, block.period = slot) ∨ ∀ block ∈ blocks, slot < block.period

instance (blocks : List Applied) (slot : ℕ) : Decidable (Filled blocks slot) :=
  inferInstanceAs (Decidable (_ ∨ _))

/-- How many slots between the first block and the last were missed. -/
def missedSlots (blocks : List Applied) : ℕ :=
  ((Finset.range (lastPeriod blocks)).filter fun slot => ¬ Filled blocks slot).card

@[simp] theorem lastPeriod_concat (earlier : List Applied) (block : Applied) :
    lastPeriod (earlier ++ [block]) = block.period := by
  simp [lastPeriod]

namespace Ascending

variable {earlier : List Applied} {block : Applied}

theorem init (ascending : Ascending (earlier ++ [block])) : Ascending earlier :=
  (List.isChain_append.mp ascending).1

theorem last (ascending : Ascending (earlier ++ [block])) (some_earlier : earlier ≠ []) :
    lastPeriod earlier < block.period := by
  obtain ⟨-, -, steps⟩ := List.isChain_append.mp ascending
  have found := List.getLast?_eq_some_getLast some_earlier
  rw [lastPeriod, found]
  exact steps _ found block rfl

theorem le_lastPeriod {blocks : List Applied} (ascending : Ascending blocks) {b : Applied}
    (member : b ∈ blocks) : b.period ≤ lastPeriod blocks := by
  induction blocks using List.reverseRecOn with
  | nil => cases member
  | append_singleton earlier block ih =>
    rw [lastPeriod_concat]
    rcases List.mem_append.mp member with before | own
    · have below := ih ascending.init before
      have step := ascending.last (List.ne_nil_of_mem before)
      omega
    · rw [List.mem_singleton.mp own]

theorem length_le {blocks : List Applied} (ascending : Ascending blocks) :
    blocks.length ≤ lastPeriod blocks + 1 := by
  induction blocks using List.reverseRecOn with
  | nil => exact Nat.zero_le _
  | append_singleton earlier block ih =>
    rw [lastPeriod_concat, List.length_append, List.length_singleton]
    by_cases none_earlier : earlier = []
    · rw [none_earlier, List.length_nil]
      omega
    · have bound := ih ascending.init
      have step := ascending.last none_earlier
      omega

theorem filled_concat (ascending : Ascending (earlier ++ [block])) (some_earlier : earlier ≠ [])
    {slot : ℕ} (before : slot < block.period) :
    Filled (earlier ++ [block]) slot ↔ slot ≤ lastPeriod earlier ∧ Filled earlier slot := by
  have step := ascending.last some_earlier
  constructor
  · rintro (⟨b, member, lies⟩ | first)
    · rcases List.mem_append.mp member with old | own
      · exact ⟨lies ▸ ascending.init.le_lastPeriod old, .inl ⟨b, old, lies⟩⟩
      · rw [List.mem_singleton.mp own] at lies
        omega
    · -- A slot before all blocks is before the last of the earlier ones.
      have found := List.getLast_mem some_earlier
      have below := first _ (List.mem_append_left [block] found)
      have above := ascending.init.le_lastPeriod found
      exact ⟨by omega, .inr fun b member => first b (List.mem_append_left [block] member)⟩
  · rintro ⟨-, ⟨b, member, lies⟩ | first⟩
    · exact .inl ⟨b, List.mem_append_left [block] member, lies⟩
    · refine .inr fun b member => ?_
      rcases List.mem_append.mp member with old | own
      · exact first b old
      · rwa [List.mem_singleton.mp own]

/-- A further block adds the slots between it and the block before it to the missed ones. -/
theorem missedSlots_concat (ascending : Ascending (earlier ++ [block]))
    (some_earlier : earlier ≠ []) : missedSlots (earlier ++ [block]) =
      missedSlots earlier + (block.period - lastPeriod earlier - 1) := by
  have step := ascending.last some_earlier
  -- The missed slots are those up to the block before, and all after it.
  have split : (Finset.range block.period).filter (fun slot => ¬ Filled (earlier ++ [block]) slot) =
      (Finset.range (lastPeriod earlier)).filter (fun slot => ¬ Filled earlier slot) ∪
        Finset.Ioo (lastPeriod earlier) block.period := by
    ext slot
    simp only [Finset.mem_filter, Finset.mem_range, Finset.mem_union, Finset.mem_Ioo]
    constructor
    · rintro ⟨before, missed⟩
      rw [ascending.filled_concat some_earlier before] at missed
      rcases lt_trichotomy slot (lastPeriod earlier) with below | same | above
      · exact .inl ⟨below, fun filled => missed ⟨below.le, filled⟩⟩
      · refine absurd ⟨same.le, .inl ⟨earlier.getLast some_earlier, List.getLast_mem some_earlier,
          ?_⟩⟩ missed
        rw [same, lastPeriod, List.getLast?_eq_some_getLast some_earlier]
        rfl
      · exact .inr ⟨above, before⟩
    · rintro (⟨below, missed⟩ | ⟨above, before⟩)
      · refine ⟨by omega, fun filled => missed ?_⟩
        exact ((ascending.filled_concat some_earlier (by omega)).mp filled).2
      · refine ⟨before, fun filled => ?_⟩
        have below := ((ascending.filled_concat some_earlier before).mp filled).1
        omega
  have apart : Disjoint ((Finset.range (lastPeriod earlier)).filter
      (fun slot => ¬ Filled earlier slot)) (Finset.Ioo (lastPeriod earlier) block.period) := by
    rw [Finset.disjoint_left]
    intro slot old new
    rw [Finset.mem_filter, Finset.mem_range] at old
    rw [Finset.mem_Ioo] at new
    omega
  rw [missedSlots, lastPeriod_concat, split, Finset.card_union_of_disjoint apart, Nat.card_Ioo]
  rfl

end Ascending

theorem missedSlots_singleton (block : Applied) : missedSlots [block] = 0 := by
  rw [missedSlots, Finset.card_eq_zero, Finset.filter_eq_empty_iff]
  intro slot before missed
  refine missed (.inr fun b member => ?_)
  rw [List.mem_singleton.mp member]
  exact Finset.mem_range.mp before

/-- The database after a run in terms of the slots of its blocks. -/
structure History (blocks : List Applied) (db : Database) : Prop where
  number : db.dynamic.headBlockNumber.toNat = blocks.length
  time : blocks ≠ [] → db.dynamic.time.toNat / Config.blockIntervalSeconds = lastPeriod blocks
  slot : db.dynamic.currentAbsoluteSlot.toNat = blocks.length + missedSlots blocks
  filled : ∀ i < 64, db.dynamic.recentSlotsFilled.getLsbD i = true ↔
    ∀ slot, slot + i + 1 = lastPeriod blocks → Filled blocks slot

namespace History

variable {blocks earlier : List Applied} {block : Applied} {c d : Controller} {db : Database}

theorem head_eq_zero_iff (history : History blocks db) :
    db.dynamic.headBlockNumber = 0 ↔ blocks = [] := by
  have zero : (0 : U32).toNat = 0 := by decide
  rw [← BitVec.toNat_inj, history.number, zero, List.length_eq_zero_iff]

theorem toNat_slot (history : History earlier db) (ascending : Ascending (earlier ++ [block]))
    (some_earlier : earlier ≠ []) :
    (db.getSlotAtTime block.header.time).toNat = block.period - lastPeriod earlier := by
  have step := ascending.last some_earlier
  have head : db.dynamic.headBlockNumber ≠ 0 := fun none =>
    some_earlier (history.head_eq_zero_iff.mp none)
  rw [← history.time some_earlier] at step ⊢
  refine toNat_slot_of_lt head ?_
  rw [BitVec.lt_def]
  -- A later period is a later time.
  unfold Applied.period at step
  by_contra early
  exact absurd (Nat.div_le_div_right (not_lt.mp early)) (not_le.mpr step)

theorem toNat_missedBlocks (history : History earlier db)
    (ascending : Ascending (earlier ++ [block])) :
    (missedBlocks db block.header).toNat =
      if earlier = [] then 0 else block.period - lastPeriod earlier - 1 := by
  have one : (1 : U32).toNat = 1 := by decide
  split
  · next none_earlier =>
    rw [missedBlocks, if_pos (history.head_eq_zero_iff.mpr none_earlier)]
    decide
  · next some_earlier =>
    have head : db.dynamic.headBlockNumber ≠ 0 := fun none =>
      some_earlier (history.head_eq_zero_iff.mp none)
    have step := ascending.last some_earlier
    have slot := history.toNat_slot ascending some_earlier
    have exact := (missedBlocks_exact_iff head block.header).mpr (by omega)
    omega

theorem filled_first (history : History [] db) {i : ℕ} (within : i < 64) :
    i = 0 ∨ 0 < i ∧ db.dynamic.recentSlotsFilled.getLsbD (i - 1) = true := by
  have before : db.dynamic.recentSlotsFilled.getLsbD (i - 1) = true := by
    refine (history.filled (i - 1) (by omega)).mpr fun slot lies => ?_
    cases lies
  exact i.eq_zero_or_pos.imp id fun positive => ⟨positive, before⟩

/-- Seen from a further block, the slots before it are the missed ones, then the slot of the block
before it, then those before that. -/
theorem filled_further (history : History earlier db) (ascending : Ascending (earlier ++ [block]))
    (some_earlier : earlier ≠ []) {i missed : ℕ} (within : i < 64)
    (exactly : lastPeriod earlier + missed + 1 = block.period) :
    (i = missed ∨ missed < i ∧
      db.dynamic.recentSlotsFilled.getLsbD (i - missed - 1) = true) ↔
      ∀ slot, slot + i + 1 = block.period → Filled (earlier ++ [block]) slot := by
  rcases lt_trichotomy i missed with below | same | above
  · -- The slot lies between the two blocks.
    constructor
    · rintro (same | ⟨above, -⟩) <;> omega
    · intro filled
      have found := (ascending.filled_concat some_earlier (by omega)).mp
        (filled (block.period - i - 1) (by omega))
      omega
  · -- The slot is that of the block before.
    refine ⟨fun _ slot lies => ?_, fun _ => .inl same⟩
    refine (ascending.filled_concat some_earlier (by omega)).mpr ⟨by omega, .inl ?_⟩
    refine ⟨earlier.getLast some_earlier, List.getLast_mem some_earlier, ?_⟩
    have last : (earlier.getLast some_earlier).period = lastPeriod earlier := by
      rw [lastPeriod, List.getLast?_eq_some_getLast some_earlier]
      rfl
    omega
  · rw [history.filled (i - missed - 1) (by omega)]
    constructor
    · rintro (same | ⟨-, filled⟩) slot lies
      · omega
      · exact (ascending.filled_concat some_earlier (by omega)).mpr
          ⟨by omega, filled slot (by omega)⟩
    · refine fun filled => .inr ⟨above, fun slot lies => ?_⟩
      exact ((ascending.filled_concat some_earlier (by omega)).mp (filled slot (by omega))).2

theorem accept (history : History earlier c.db) (ascending : Ascending (earlier ++ [block]))
    (number : block.header.num.toNat = earlier.length + 1) (accepted : c.accept block = some d) :
    History (earlier ++ [block]) d.db := by
  have clock := clock_accept accepted
  simp only [DynamicGlobalPropertyObject.clock, Prod.mk.injEq] at clock
  obtain ⟨shifted, -, -⟩ := counts_accept accepted
  have missed := history.toNat_missedBlocks ascending
  refine ⟨?_, fun _ => ?_, ?_, fun i within => ?_⟩
  · rw [clock.1, number, List.length_append, List.length_singleton]
  · rw [clock.2.1, lastPeriod_concat]
    rfl
  · have one : (1 : U32).toNat = 1 := by decide
    rw [clock.2.2, BitVec.toNat_add, BitVec.toNat_setWidth, BitVec.toNat_add, one, missed,
      history.slot, List.length_append, List.length_singleton]
    have period : block.period < 2 ^ 32 :=
      (Nat.div_le_self _ _).trans_lt block.header.time.isLt
    by_cases none_earlier : earlier = []
    · subst none_earlier
      rw [if_pos rfl, List.nil_append, missedSlots_singleton]
      rfl
    · -- None of the sums is large enough to wrap around.
      have step := ascending.last none_earlier
      have few := ascending.init.length_le
      have bound : missedSlots earlier ≤ lastPeriod earlier :=
        (Finset.card_filter_le _ _).trans (Finset.card_range _).le
      rw [if_neg none_earlier, ascending.missedSlots_concat none_earlier]
      omega
  · rw [shifted, getLsbD_shiftSlots _ _ within, missed, lastPeriod_concat]
    by_cases none_earlier : earlier = []
    · subst none_earlier
      rw [if_pos rfl]
      refine ⟨fun _ slot lies => .inr fun b member => ?_, fun _ => history.filled_first within⟩
      rw [List.mem_singleton.mp member]
      omega
    · have step := ascending.last none_earlier
      rw [if_neg none_earlier]
      exact history.filled_further ascending none_earlier within (by omega)

theorem initializeChain {initialProducers : List Address}
    (started : initializeChain initialProducers = some c) : History [] c.db := by
  have dynamic := dynamic_initializeChain started
  refine ⟨?_, fun absurd_ => absurd rfl absurd_, ?_, fun i within => ?_⟩
  · rw [dynamic]
    rfl
  · rw [dynamic]
    rfl
  · rw [dynamic]
    refine ⟨fun _ slot lies => .inr fun b member => ?_, fun _ => ?_⟩
    · cases member
    · exact BitVec.getLsbD_allOnes.trans (decide_eq_true within)

theorem replay {initialProducers : List Address} (numbered : Numbered blocks)
    (ascending : Ascending blocks) (replayed : replay initialProducers blocks = some c) :
    History blocks c.db := by
  induction blocks using List.reverseRecOn generalizing c with
  | nil =>
    rw [replay_nil] at replayed
    exact initializeChain replayed
  | append_singleton earlier block ih =>
    obtain ⟨m, before, accepted⟩ := replay_concat.mp replayed
    exact (ih numbered.init ascending.init before).accept ascending numbered.last accepted

end History

/-- The slots without a block between a block and the block before it. -/
def slotsBetween (earlier : List Applied) (block : Applied) : ℕ :=
  if earlier = [] then 0 else block.period - lastPeriod earlier - 1

/-- A head lies in no slot after itself, unless the next slot starts after the end of time. -/
theorem getSlotAtTime_head_iff (head : db.dynamic.headBlockNumber ≠ 0) :
    db.getSlotAtTime db.dynamic.time = 0 ↔ db.dynamic.time.toNat + 1 < 2 ^ 32 := by
  have bound := db.dynamic.time.isLt
  constructor
  · intro none
    -- In the last second of all the start of the next slot wraps around.
    by_contra late
    have last : db.dynamic.time = BitVec.allOnes 32 := by
      refine BitVec.eq_of_toNat_eq ?_
      rw [BitVec.toNat_allOnes]
      omega
    unfold getSlotAtTime getSlotTime at none
    rw [if_neg head, last] at none
    exact absurd none (by decide)
  · intro fits
    have next : db.slotStart 1 < 2 ^ 32 := by
      rw [slotStart_one head]
      omega
    refine BitVec.eq_of_toNat_eq ?_
    rw [db.toNat_getSlotAtTime next, if_pos (by rw [slotStart_one head]; omega)]
    rfl

/-- In every run whose blocks lie in later and later slots, the absolute slot counts blocks and
missed slots, the bitmap shows the filled slots, every missed slot is counted against the producer
whose turn it was, and the signer is noted with the slot of its block, up to the last second. -/
theorem slots_are_counted {initialProducers : List Address} {blocks : List Applied}
    {last : Controller} (replayed : replay initialProducers blocks = some last)
    (numbered : Numbered blocks) (ascending : Ascending blocks) :
    last.db.dynamic.currentAbsoluteSlot.toNat =
      last.db.dynamic.headBlockNumber.toNat + missedSlots blocks ∧
    (∀ i < 64, last.db.dynamic.recentSlotsFilled.getLsbD i = true ↔
      ∀ slot, slot + i + 1 = lastPeriod blocks → Filled blocks slot) ∧
    ∀ earlier block later c d, blocks = earlier ++ [block] ++ later →
      replay initialProducers earlier = some c → c.accept block = some d →
      (∀ a, (d.db.record a).2 = (c.db.record a).2 + BitVec.ofNat 64
        ((List.range (slotsBetween earlier block)).countP fun i => Charged c.db block.header a i)) ∧
      ((d.db.producers.find block.header.producer).map (·.lastAslot) =
        some d.db.dynamic.currentAbsoluteSlot ↔ block.header.time.toNat + 1 < 2 ^ 32) := by
  have history := History.replay numbered ascending replayed
  refine ⟨by rw [history.slot, history.number], history.filled, ?_⟩
  rintro earlier block later c d rfl before accepted
  have ascends : Ascending (earlier ++ [block]) := (List.isChain_append.mp ascending).1
  have numbers : Numbered (earlier ++ [block]) := fun i b found =>
    numbered i b (List.getElem?_append_left (List.getElem?_eq_some_iff.mp found).1 ▸ found)
  have start := History.replay numbers.init ascends.init before
  have finish := start.accept ascends numbers.last accepted
  obtain ⟨-, missing, signing⟩ := counts_accept accepted
  constructor
  · rw [start.toNat_missedBlocks ascends] at missing
    exact missing
  · -- The slot of the head after itself is what is added to the absolute slot.
    have head : d.db.dynamic.headBlockNumber ≠ 0 := fun none => by
      simpa using finish.head_eq_zero_iff.mp none
    have time : d.db.dynamic.time = block.header.time := congrArg (·.2.1) (clock_accept accepted)
    rw [signing, Option.some.injEq, ← time, ← getSlotAtTime_head_iff head, add_eq_left]
    constructor
    · intro none
      refine BitVec.eq_of_toNat_eq ?_
      have zero := congrArg BitVec.toNat none
      rwa [BitVec.toNat_setWidth_of_le (by decide)] at zero
    · intro none
      rw [none]
      rfl

/-- The second of the two blocks of the only producer misses the slots between them. -/
theorem slots_are_counted_soleBlocks : ∃ c d, replay [100] [soleBlock 1 1513580387] = some c ∧
    c.accept (soleBlock 2 1513580445) = some d ∧
    d.db.dynamic.currentAbsoluteSlot.toNat =
      d.db.dynamic.headBlockNumber.toNat + missedSlots soleBlocks ∧
    (d.db.dynamic.recentSlotsFilled.getLsbD 18 = true ↔
      ∀ slot, slot + 18 + 1 = lastPeriod soleBlocks → Filled soleBlocks slot) ∧
    (d.db.producers.find 100).map (·.lastAslot) = some d.db.dynamic.currentAbsoluteSlot := by
  have accepts : (replay [100] soleBlocks).isSome = true := by decide +kernel
  obtain ⟨d, replayed⟩ := Option.isSome_iff_exists.mp accepts
  have concat : replay [100] ([soleBlock 1 1513580387] ++ [soleBlock 2 1513580445]) = some d :=
    replayed
  obtain ⟨c, first, second⟩ := replay_concat.mp concat
  have numbered : Numbered soleBlocks := by
    intro i block found
    rcases i with _ | _ | i
    · cases found
      decide
    · cases found
      decide
    · cases found
  obtain ⟨slot, filled, counted⟩ := slots_are_counted replayed numbered (by decide)
  refine ⟨c, d, first, second, slot, filled 18 (by decide), ?_⟩
  exact (counted [soleBlock 1 1513580387] (soleBlock 2 1513580445) [] c d rfl first second).2.mpr
    (by decide)

/-- Twenty-one producers for a round without empty places. -/
def fullRound : List Address := (List.range 21).map fun i => BitVec.ofNat 160 (100 + i)

/-- A first block in the last second that 32 bits have room for, signed by the producer whose turn
it is. -/
def lastSecondBlock : Applied := .signed 111 1 4294967295 ∅

/-- In the last second the signer is noted with a slot that is not the block's. -/
theorem last_second_aslot : ∃ d, replay fullRound [lastSecondBlock] = some d ∧
    Numbered [lastSecondBlock] ∧ Ascending [lastSecondBlock] ∧
    d.db.dynamic.currentAbsoluteSlot = 1 ∧
    (d.db.producers.find 111).map (·.lastAslot) = some 1431655766 := by
  have evaluated : ((replay fullRound [lastSecondBlock]).any fun d =>
      decide (d.db.dynamic.currentAbsoluteSlot = 1 ∧
        (d.db.producers.find 111).map (·.lastAslot) = some 1431655766)) = true := by
    decide +kernel
  obtain ⟨d, replayed, checked⟩ := (Option.any_eq_true _ _).mp evaluated
  obtain ⟨slot, noted⟩ := of_decide_eq_true checked
  refine ⟨d, replayed, fun i block found => ?_, by decide, slot, noted⟩
  rcases i with _ | i
  · cases found
    decide
  · cases found

end Controller

end Etiam
