import Etiam.Producer.Frames

/-! Slots: every accepted block advances the clock, and which blocks share a slot with their head.
-/

namespace Etiam

open Exec Database

/-- The clock of the database stays as it is. -/
def SameClock (before after : Database) : Prop := after.dynamic.clock = before.dynamic.clock

theorem raceFrame_sameClock : RaceFrame SameClock where
  refl _ := rfl
  trans _ _ _ first second := Eq.trans second first
  producer _ _ := Within.zoom fun _ => rfl
  addProducer _ _ := Within.zoom fun _ => rfl
  global _ := fun _ => rfl
  queue _ same := fun db => same db.dynamic
  enter _ _ := Within.zoom fun _ => rfl
  change _ _ := Within.zoom fun _ => rfl
  leave _ := Within.zoom fun _ => rfl
  time _ := fun _ => rfl

namespace Database

variable (db : Database)

/-- The second at which a slot after the head starts, were times unbounded. -/
def slotStart (slot : ℕ) : ℕ :=
  (if db.dynamic.headBlockNumber = 0 then db.dynamic.time.toNat
    else db.dynamic.time.toNat / Config.blockIntervalSeconds * Config.blockIntervalSeconds) +
    slot * Config.blockIntervalSeconds

theorem slotStart_succ (slot : ℕ) :
    db.slotStart (slot + 1) = db.slotStart slot + Config.blockIntervalSeconds := by
  rw [slotStart, slotStart, Nat.succ_mul, Nat.add_assoc]

theorem slotStart_eq (slot : ℕ) :
    db.slotStart (slot + 1) = db.slotStart 1 + slot * Config.blockIntervalSeconds := by
  rw [slotStart, slotStart, Nat.succ_mul, Nat.one_mul]
  omega

variable {slot time : U32}

theorem toNat_getSlotTime (later : slot ≠ 0) (fits : db.slotStart slot.toNat < 2 ^ 32) :
    (db.getSlotTime slot).toNat = db.slotStart slot.toNat := by
  have interval : (BitVec.ofNat 32 Config.blockIntervalSeconds).toNat = 3 := by decide
  have seconds : Config.blockIntervalSeconds = 3 := rfl
  simp only [slotStart, seconds] at fits ⊢
  -- The first block counts from the start of the chain, every other one from the head's period.
  by_cases start : db.dynamic.headBlockNumber = 0
  · simp only [if_pos start] at fits ⊢
    simp only [getSlotTime, if_neg later, if_pos start, BitVec.toNat_add, BitVec.toNat_mul,
      interval]
    omega
  · simp only [if_neg start] at fits ⊢
    simp only [getSlotTime, if_neg later, if_neg start, BitVec.toNat_add, BitVec.toNat_mul,
      BitVec.toNat_udiv, interval]
    omega

theorem toNat_getSlotAtTime (fits : db.slotStart 1 < 2 ^ 32) (time : U32) :
    (db.getSlotAtTime time).toNat =
      if time.toNat < db.slotStart 1 then 0
      else (time.toNat - db.slotStart 1) / Config.blockIntervalSeconds + 1 := by
  have one : (1 : U32).toNat = 1 := by decide
  have zero : (0 : U32).toNat = 0 := by decide
  have interval : (BitVec.ofNat 32 Config.blockIntervalSeconds).toNat = 3 := by decide
  have seconds : Config.blockIntervalSeconds = 3 := rfl
  have first : (db.getSlotTime 1).toNat = db.slotStart 1 := by
    have exact := @toNat_getSlotTime db 1 (by decide) (by rwa [one])
    rwa [one] at exact
  have bound := time.isLt
  simp only [getSlotAtTime, BitVec.lt_def, first]
  split
  · exact zero
  · next late =>
    simp only [BitVec.toNat_add, BitVec.toNat_udiv, BitVec.toNat_sub, first, one, interval]
    rw [seconds]
    omega

theorem getSlotAtTime_eq_iff (fits : db.slotStart 1 < 2 ^ 32)
    (later : slot ≠ 0) : db.getSlotAtTime time = slot ↔
      db.slotStart slot.toNat ≤ time.toNat ∧ time.toNat < db.slotStart (slot.toNat + 1) := by
  -- Both sides count periods from the first slot.
  obtain ⟨index, number⟩ : ∃ index, slot.toNat = index + 1 := by
    refine Nat.exists_eq_succ_of_ne_zero fun zero => later ?_
    exact BitVec.eq_of_toNat_eq zero
  have seconds : Config.blockIntervalSeconds = 3 := rfl
  rw [BitVec.toNat_inj.symm, db.toNat_getSlotAtTime fits, number, db.slotStart_eq index,
    db.slotStart_eq (index + 1), seconds]
  split <;> omega

theorem slotStart_mono {slot slot' : ℕ} (le : slot ≤ slot') :
    db.slotStart slot ≤ db.slotStart slot' := by
  have periods := Nat.mul_le_mul_right Config.blockIntervalSeconds le
  rw [slotStart, slotStart]
  omega

theorem getSlotAtTime_getSlotTime (later : slot ≠ 0)
    (fits : db.slotStart slot.toNat < 2 ^ 32) : db.getSlotAtTime (db.getSlotTime slot) = slot := by
  have positive : 1 ≤ slot.toNat := by
    refine Nat.one_le_iff_ne_zero.mpr fun zero => later ?_
    exact BitVec.eq_of_toNat_eq zero
  have seconds : Config.blockIntervalSeconds = 3 := rfl
  refine (db.getSlotAtTime_eq_iff ((db.slotStart_mono positive).trans_lt fits) later).mpr ?_
  rw [db.toNat_getSlotTime later fits, db.slotStart_succ, seconds]
  omega

theorem slot_contains (fits : db.slotStart 1 < 2 ^ 32) (later : db.getSlotAtTime time ≠ 0) :
    db.slotStart (db.getSlotAtTime time).toNat ≤ time.toNat ∧
      time.toNat < db.slotStart ((db.getSlotAtTime time).toNat + 1) :=
  (db.getSlotAtTime_eq_iff fits later).mp rfl

/-- The time of the slot of a time, and the time of the next slot, enclose that time. -/
theorem getSlotTime_encloses (later : db.getSlotAtTime time ≠ 0)
    (fits : db.slotStart ((db.getSlotAtTime time).toNat + 1) < 2 ^ 32) :
    db.getSlotTime (db.getSlotAtTime time) ≤ time ∧
      time < db.getSlotTime (db.getSlotAtTime time + 1) := by
  have seconds : Config.blockIntervalSeconds = 3 := rfl
  have one : (1 : U32).toNat = 1 := by decide
  obtain ⟨begins, ends⟩ := db.slot_contains
    ((db.slotStart_mono (Nat.le_add_left 1 _)).trans_lt fits) later
  -- As the next slot starts in time, its number does not wrap around.
  have next : (db.getSlotAtTime time + 1).toNat = (db.getSlotAtTime time).toNat + 1 := by
    have bound : (db.getSlotAtTime time).toNat + 1 < 2 ^ 32 := by
      rw [slotStart, seconds] at fits
      omega
    rw [BitVec.toNat_add, one, Nat.mod_eq_of_lt bound]
  have following : db.getSlotAtTime time + 1 ≠ 0 := by
    intro zero
    have none := congrArg BitVec.toNat zero
    rw [next] at none
    exact Nat.succ_ne_zero _ none
  rw [BitVec.le_def, BitVec.lt_def, db.toNat_getSlotTime later (begins.trans_lt time.isLt),
    db.toNat_getSlotTime following (by rwa [next]), next]
  exact ⟨begins, ends⟩

end Database

namespace Controller

variable {db : Database} {b : BlockHeader} {c d : Controller} {block : Applied}

theorem missedBlocks_congr {db' : Database} (same : SameClock db db') (b : BlockHeader) :
    missedBlocks db' b = missedBlocks db b := by
  simp only [SameClock, DynamicGlobalPropertyObject.clock, Prod.mk.injEq] at same
  simp only [missedBlocks, getSlotAtTime, getSlotTime, same.1, same.2.1]

theorem clock_updateGlobalDynamicData {db' : Database}
    (ran : (updateGlobalDynamicData b).run db = .ok () db') :
    db'.dynamic.clock = (b.num, b.time,
      db.dynamic.currentAbsoluteSlot + (missedBlocks db b + 1).setWidth 64) := by
  unfold updateGlobalDynamicData at ran
  rw [run_get_bind] at ran
  obtain ⟨_, counted, counting, moved⟩ := bind_eq_ok.mp ran
  -- Counting the missed slots leaves the clock alone.
  have during := raceFrame_sameClock.countMissed (fun a => raceFrame_sameClock.producer a _) b
    (missedBlocks db b).toNat db
  rw [counting] at during
  simp only [SameClock, final_ok, DynamicGlobalPropertyObject.clock, Prod.mk.injEq] at during
  cases moved
  rw [← during.2.2]
  rfl

theorem clock_applyBlock {lastBlockId : Hash} {view : ParentView}
    (applied : (applyBlock lastBlockId view b).run c = .ok () d) :
    d.db.dynamic.clock = (b.num, b.time,
      c.db.dynamic.currentAbsoluteSlot + (missedBlocks c.db b + 1).setWidth 64) := by
  obtain ⟨_, m, opened, rest⟩ := bind_eq_ok.mp applied
  obtain ⟨_, n, advanced, rest⟩ := bind_eq_ok.mp rest
  obtain ⟨db, ran, rfl⟩ := zoom_eq_ok.mp advanced
  obtain ⟨_, o, chosen, confirmed⟩ := bind_eq_ok.mp rest
  -- The clock is still that of the old head before this step, and stays after it.
  have start : SameClock c.db m.db := by
    have within := raceFrame_sameClock.tracks.openBlock lastBlockId view b c
    rwa [opened] at within
  have round : SameClock db o.db := by
    have within := WriteFrame.onDb (raceFrame_sameClock.notes.updateGlobalProperties
      raceFrame_sameClock.tracks.advanceRace b) { m with db }
    rwa [chosen] at within
  have finish : SameClock o.db d.db := by
    have within := raceFrame_sameClock.confirmBlock (fun _ _ => rfl) b o
    rwa [confirmed] at within
  have slot : m.db.dynamic.currentAbsoluteSlot = c.db.dynamic.currentAbsoluteSlot :=
    congrArg (·.2.2) start
  rw [finish, round, clock_updateGlobalDynamicData ran, missedBlocks_congr start, slot]

theorem clock_accept (accepted : c.accept block = some d) :
    d.db.dynamic.clock = (block.header.num, block.header.time,
      c.db.dynamic.currentAbsoluteSlot + (missedBlocks c.db block.header + 1).setWidth 64) := by
  -- Opening a session changes no object.
  have clock := clock_applyBlock (accept_eq_some.mp accepted)
  exact clock

/-- A header lies in a later period of one slot's length than the head. -/
def LaterPeriod (db : Database) (b : BlockHeader) : Prop :=
  db.dynamic.time.toNat / Config.blockIntervalSeconds <
    b.time.toNat / Config.blockIntervalSeconds

section

variable (head : db.dynamic.headBlockNumber ≠ 0)

include head

theorem slotStart_one : db.slotStart 1 = (db.dynamic.time.toNat / 3 + 1) * 3 := by
  rw [slotStart, if_neg head, Nat.add_mul]
  rfl

theorem toNat_slot_of_lt {time : U32} (later : db.dynamic.time < time) :
    (db.getSlotAtTime time).toNat =
      time.toNat / Config.blockIntervalSeconds -
        db.dynamic.time.toNat / Config.blockIntervalSeconds := by
  have bound := time.isLt
  have seconds : Config.blockIntervalSeconds = 3 := rfl
  rw [BitVec.lt_def] at later
  -- A time is left after the head's, so the next period starts in time.
  have fits : db.slotStart 1 < 2 ^ 32 := by
    rw [slotStart_one head]
    omega
  rw [db.toNat_getSlotAtTime fits, slotStart_one head, seconds]
  split <;> omega

theorem one_le_slot_iff (later : db.dynamic.time < b.time) :
    1 ≤ (db.getSlotAtTime b.time).toNat ↔ LaterPeriod db b := by
  rw [toNat_slot_of_lt head later, LaterPeriod]
  omega

/-- The missed slots are those before the slot of the block, unless there are none to subtract. -/
theorem missedBlocks_exact_iff (b : BlockHeader) :
    (missedBlocks db b).toNat + 1 = (db.getSlotAtTime b.time).toNat ↔
      1 ≤ (db.getSlotAtTime b.time).toNat := by
  have bound := (db.getSlotAtTime b.time).isLt
  have one : (1 : U32).toNat = 1 := by decide
  rw [missedBlocks, if_neg head, BitVec.toNat_sub, one]
  omega

end

theorem missedBlocks_add_one (db : Database) (b : BlockHeader) :
    missedBlocks db b + 1 =
      if db.dynamic.headBlockNumber = 0 then 1 else db.getSlotAtTime b.time := by
  rw [missedBlocks, sub_add_cancel]

/-- A header does not repeat the head's slot: it lies in a later period than the head, or it is not
by the producer of the head's own slot. -/
def NoRepeat (db : Database) (b : BlockHeader) : Prop :=
  LaterPeriod db b ∨ b.producer ≠ db.getScheduledProducer 0

/-- The producer of an accepted block is the one whose turn it is in the slot of the block. -/
theorem scheduled_of_accept (accepted : c.accept block = some d) :
    c.db.getScheduledProducer (c.db.getSlotAtTime block.header.time) = block.header.producer := by
  obtain ⟨_, m, opened, -⟩ := bind_eq_ok.mp (accept_eq_some.mp accepted)
  obtain ⟨_, _, validated, -⟩ := bind_eq_ok.mp opened
  obtain ⟨valid, ran, -⟩ := zoom_eq_ok.mp validated
  exact (validateBlockHeader_eq_ok.mp ran).2.1

/-- Among the accepted headers that are later than the head, those that do not repeat its slot are
those in later periods: in the head's own period it is the turn of one producer only. -/
theorem noRepeat_iff (head : c.db.dynamic.headBlockNumber ≠ 0)
    (later : c.db.dynamic.time < block.header.time) (accepted : c.accept block = some d) :
    NoRepeat c.db block.header ↔ LaterPeriod c.db block.header := by
  refine ⟨fun noRepeat => ?_, .inl⟩
  by_contra same
  have other := noRepeat.resolve_left same
  have zero : c.db.getSlotAtTime block.header.time = 0 := by
    rw [← one_le_slot_iff head later] at same
    exact BitVec.eq_of_toNat_eq (Nat.lt_one_iff.mp (not_le.mp same))
  have turn := scheduled_of_accept accepted
  rw [zero] at turn
  exact other turn.symm

/-- Every block of a run that has a head before it is later than the head and does not repeat its
slot. -/
def Spaced (initialProducers : List Address) (blocks : List Applied) : Prop :=
  ∀ c block, Applies initialProducers blocks c block → c.db.dynamic.headBlockNumber ≠ 0 →
    c.db.dynamic.time < block.header.time ∧ NoRepeat c.db block.header

/-- A block in a slot of its own advances the absolute slot, which has room for one more block. -/
theorem absoluteSlot_accept
    (spaced : c.db.dynamic.headBlockNumber ≠ 0 →
      c.db.dynamic.time < block.header.time ∧ NoRepeat c.db block.header)
    (room : c.db.dynamic.currentAbsoluteSlot.toNat + 2 ^ 32 ≤ 2 ^ 64)
    (accepted : c.accept block = some d) :
    c.db.dynamic.currentAbsoluteSlot.toNat < d.db.dynamic.currentAbsoluteSlot.toNat ∧
    d.db.dynamic.currentAbsoluteSlot.toNat <
      c.db.dynamic.currentAbsoluteSlot.toNat + 2 ^ 32 := by
  have slot : d.db.dynamic.currentAbsoluteSlot = c.db.dynamic.currentAbsoluteSlot +
      (missedBlocks c.db block.header + 1).setWidth 64 := congrArg (·.2.2) (clock_accept accepted)
  have advances : 1 ≤ (missedBlocks c.db block.header + 1).toNat := by
    rw [missedBlocks_add_one]
    split
    · decide
    · next head =>
      obtain ⟨later, noRepeat⟩ := spaced head
      exact (one_le_slot_iff head later).mpr ((noRepeat_iff head later accepted).mp noRepeat)
  have bound := (missedBlocks c.db block.header + 1).isLt
  rw [slot, BitVec.toNat_add, BitVec.toNat_setWidth]
  omega

theorem absoluteSlot_le {initialProducers : List Address} {blocks : List Applied}
    (spaced : Spaced initialProducers blocks) (few : blocks.length < 2 ^ 32)
    (replayed : replay initialProducers blocks = some c) :
    c.db.dynamic.currentAbsoluteSlot.toNat ≤ blocks.length * (2 ^ 32 - 1) := by
  induction blocks using List.reverseRecOn generalizing c with
  | nil =>
    rw [replay_nil] at replayed
    rw [dynamic_initializeChain replayed]
    exact Nat.zero_le _
  | append_singleton earlier block ih =>
    obtain ⟨m, before, accepted⟩ := replay_concat.mp replayed
    rw [List.length_append, List.length_singleton] at few ⊢
    have start := ih (fun n next applies => spaced n next (applies.append [block]))
      (by omega) before
    have step := absoluteSlot_accept (spaced m block (applies_concat before block))
      (by omega) accepted
    omega

theorem absoluteSlot_lt {initialProducers : List Address} {earlier between : List Applied}
    (spaced : Spaced initialProducers (earlier ++ between))
    (few : (earlier ++ between).length < 2 ^ 32) (some_between : between ≠ [])
    (before : replay initialProducers earlier = some c)
    (after : replay initialProducers (earlier ++ between) = some d) :
    c.db.dynamic.currentAbsoluteSlot.toNat < d.db.dynamic.currentAbsoluteSlot.toNat := by
  induction between using List.reverseRecOn generalizing d with
  | nil => exact absurd rfl some_between
  | append_singleton middle block ih =>
    rw [← List.append_assoc] at spaced few after
    obtain ⟨m, reached, accepted⟩ := replay_concat.mp after
    have shorter : Spaced initialProducers (earlier ++ middle) :=
      fun n next applies => spaced n next (applies.append [block])
    rw [List.length_append, List.length_singleton] at few
    have bound := absoluteSlot_le shorter (by omega) reached
    have step := absoluteSlot_accept (spaced m block (applies_concat reached block)) (by omega)
      accepted
    -- Either the run was at the first state just before, or it had advanced already.
    by_cases none_middle : middle = []
    · subst none_middle
      rw [List.append_nil, before] at reached
      cases reached
      exact step.1
    · exact (ih shorter (by omega) none_middle reached).trans step.1

/-- In every state of a run, the accepted headers that lie in a slot after the head's, with the
missed slots counted exactly, are those that do not repeat the head's slot; and where no block of a
run does, every block has a slot of its own. -/
theorem slots_of_run {initialProducers : List Address} {blocks : List Applied} {c : Controller}
    (replayed : replay initialProducers blocks = some c) :
    (∀ block d, c.db.dynamic.headBlockNumber ≠ 0 → c.db.dynamic.time < block.header.time →
      c.accept block = some d →
      ((1 ≤ (c.db.getSlotAtTime block.header.time).toNat ∧
        (missedBlocks c.db block.header).toNat + 1 =
          (c.db.getSlotAtTime block.header.time).toNat) ↔ NoRepeat c.db block.header)) ∧
    (Spaced initialProducers blocks → blocks.length < 2 ^ 32 →
      ∀ earlier between m, blocks = earlier ++ between → between ≠ [] →
        replay initialProducers earlier = some m →
        m.db.dynamic.currentAbsoluteSlot.toNat < c.db.dynamic.currentAbsoluteSlot.toNat) := by
  constructor
  · intro block d head later accepted
    rw [missedBlocks_exact_iff head, and_self, one_le_slot_iff head later,
      noRepeat_iff head later accepted]
  · intro spaced few earlier between m split some_between before
    subst split
    exact absoluteSlot_lt spaced few some_between before replayed

/-- A block of the only producer, with nobody voting. -/
def soleBlock (number timestamp : ℕ) : Applied := .signed 100 number timestamp ∅

/-- Two blocks of the only producer in two of its slots. -/
def soleBlocks : List Applied := [soleBlock 1 1513580387, soleBlock 2 1513580445]

/-- The second block of the only producer is in a later period than the first. -/
theorem later_soleBlocks {c : Controller}
    (replayed : replay [100] [soleBlock 1 1513580387] = some c) :
    c.db.dynamic.headBlockNumber ≠ 0 ∧
      c.db.dynamic.time < (soleBlock 2 1513580445).header.time ∧
      NoRepeat c.db (soleBlock 2 1513580445).header := by
  have concat : replay [100] ([] ++ [soleBlock 1 1513580387]) = some c := replayed
  obtain ⟨start, -, accepted⟩ := replay_concat.mp concat
  have clock := clock_accept accepted
  have number : c.db.dynamic.headBlockNumber = (soleBlock 1 1513580387).header.num :=
    congrArg (·.1) clock
  have time : c.db.dynamic.time = (soleBlock 1 1513580387).header.time := congrArg (·.2.1) clock
  refine ⟨?_, ?_, .inl ?_⟩
  · rw [number]
    decide
  · rw [time]
    decide
  · rw [LaterPeriod, time]
    decide

theorem spaced_soleBlocks : Spaced [100] soleBlocks := by
  rintro c block ⟨earlier, later, split, replayed⟩ head
  rcases earlier with _ | ⟨first, _ | ⟨second, rest⟩⟩
  · -- The first block is applied at the start, where there is no head.
    rw [replay_nil] at replayed
    rw [dynamic_initializeChain replayed] at head
    exact absurd rfl head
  · simp only [soleBlocks, List.cons_append, List.nil_append, List.cons.injEq] at split
    obtain ⟨rfl, rfl, -⟩ := split
    exact (later_soleBlocks replayed).2
  · simp [soleBlocks] at split

/-- The second block of the only producer is accepted, one slot or more after the first. -/
theorem slots_of_run_soleBlocks : ∃ c d, replay [100] [soleBlock 1 1513580387] = some c ∧
    replay [100] soleBlocks = some d ∧
    1 ≤ (c.db.getSlotAtTime (soleBlock 2 1513580445).header.time).toNat ∧
    c.db.dynamic.currentAbsoluteSlot.toNat < d.db.dynamic.currentAbsoluteSlot.toNat := by
  have accepts : (replay [100] soleBlocks).isSome = true := by decide +kernel
  obtain ⟨d, replayed⟩ := Option.isSome_iff_exists.mp accepts
  have concat : replay [100] ([soleBlock 1 1513580387] ++ [soleBlock 2 1513580445]) = some d :=
    replayed
  obtain ⟨c, first, accepted⟩ := replay_concat.mp concat
  obtain ⟨head, later, noRepeat⟩ := later_soleBlocks first
  exact ⟨c, d, first, replayed,
    (((slots_of_run first).1 (soleBlock 2 1513580445) d head later accepted).mpr noRepeat).1,
    (slots_of_run replayed).2 spaced_soleBlocks (by decide) [soleBlock 1 1513580387]
      [soleBlock 2 1513580445] c rfl (by simp) first⟩

/-- Every place of the round is empty or the given producer's, and that producer is known. -/
def SoleProducer (db : Database) (producer : Address) : Prop :=
  (db.producers.find producer).isSome ∧
    ∀ place, db.global.activeProducers.get place = 0 ∨
      db.global.activeProducers.get place = producer

instance (db : Database) (producer : Address) : Decidable (SoleProducer db producer) :=
  inferInstanceAs (Decidable (_ ∧ _))

theorem SoleProducer.countMissed (sole : SoleProducer db b.producer) (missed : ℕ) :
    (countMissed b missed).run db = .ok () db := by
  refine forM_idle fun i _ => ?_
  rw [run_get_bind]
  dsimp only
  rcases sole.2 _ with empty | own
  · rw [getScheduledProducer, empty]
    rfl
  · obtain ⟨producer, found⟩ := Option.isSome_iff_exists.mp sole.1
    rw [getScheduledProducer, own]
    have read : (onProducers (Index.get b.producer)).run db = .ok producer db :=
      zoom_ok (Index.run_get found)
    by_cases null : b.producer = 0
    · rw [if_neg (not_not.mpr null)]
      rfl
    · rw [if_pos null, bind_ok read, if_neg (not_not.mpr rfl)]
      rfl

theorem SoleProducer.accept {m : Controller}
    (opened : (openBlock block.lastBlockId block.view block.header).run
      { c with db := c.db.startUndoSession } = .ok () m)
    (sole : SoleProducer m.db block.header.producer)
    (closed : (onDb (modifyDynamic (setHead block.header (missedBlocks m.db block.header))) >>=
      fun _ => onDb (updateGlobalProperties block.header) >>=
      fun _ => confirmBlock block.header).run m = .ok () d) :
    c.accept block = some d := by
  obtain ⟨_, n, moved, rest⟩ := bind_eq_ok.mp closed
  obtain ⟨db, wrote, rfl⟩ := zoom_eq_ok.mp moved
  have ran : (updateGlobalDynamicData block.header).run m.db = .ok () db := by
    unfold updateGlobalDynamicData
    rw [run_get_bind, bind_ok (sole.countMissed _)]
    exact wrote
  refine accept_eq_some.mpr ?_
  unfold applyBlock
  rw [bind_ok opened]
  exact (bind_ok (zoom_ok ran)).trans rest

/-- A block one second after the second block of its producer. -/
def repeatBlock : Applied := soleBlock 3 1513580446

/-- One second after its block the only producer fills the same slot again. -/
theorem slot_filled_twice : ∃ c d,
    replay [100] soleBlocks = some c ∧
    c.db.dynamic.headBlockNumber ≠ 0 ∧ c.db.dynamic.time < repeatBlock.header.time ∧
    c.accept repeatBlock = some d ∧
    c.db.getSlotAtTime repeatBlock.header.time = 0 ∧
    (missedBlocks c.db repeatBlock.header).toNat = 2 ^ 32 - 1 ∧
    d.db.dynamic.currentAbsoluteSlot = c.db.dynamic.currentAbsoluteSlot := by
  -- The loop over the missed slots is too long to run, so it is replaced by what it comes to.
  have evaluated : ((replay [100] soleBlocks).any fun c =>
      decide (c.db.dynamic.headBlockNumber ≠ (0 : U32) ∧
        c.db.dynamic.time < repeatBlock.header.time ∧
        c.db.getSlotAtTime repeatBlock.header.time = (0 : U32)) &&
      match (openBlock 1 { votes := ∅, powOps := [] } repeatBlock.header).run
          { c with db := c.db.startUndoSession } with
      | .error _ _ => false
      | .ok _ m => decide (SoleProducer m.db 100) &&
        match (onDb (modifyDynamic (setHead repeatBlock.header
            (missedBlocks m.db repeatBlock.header))) >>=
            fun _ => onDb (updateGlobalProperties repeatBlock.header) >>=
            fun _ => confirmBlock repeatBlock.header).run m with
        | .error _ _ => false
        | .ok _ _ => true) = true := by decide +kernel
  obtain ⟨c, replayed, checked⟩ := (Option.any_eq_true _ _).mp evaluated
  rw [Bool.and_eq_true, decide_eq_true_eq] at checked
  obtain ⟨⟨head, later, slot⟩, accepted⟩ := checked
  split at accepted
  · cases accepted
  · next u m opened =>
    rw [Bool.and_eq_true, decide_eq_true_eq] at accepted
    obtain ⟨sole, accepted⟩ := accepted
    split at accepted
    · cases accepted
    · next u d closed =>
      have done := SoleProducer.accept opened sole closed
      have missed : missedBlocks c.db repeatBlock.header = -1 := by
        rw [missedBlocks, if_neg head, slot]
        decide
      refine ⟨c, d, replayed, head, later, done, slot, ?_, ?_⟩
      · rw [missed]
        decide
      · have clock := congrArg (·.2.2) (clock_accept done)
        rw [missed] at clock
        exact clock.trans (by simp)

end Controller

end Etiam
