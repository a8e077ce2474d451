import Etiam.Library.ListOrder
import Etiam.Producer.Round
import Etiam.Producer.Slots

/-! The last irreversible block: what the producers of the round have confirmed of it. -/

namespace Etiam

open Exec Database

namespace Move

variable {block : Controller.Applied} {s t : Database}

theorem lastIrreversible (move : Move block s t) :
    t.dynamic.lastIrreversibleBlockNum = s.dynamic.lastIrreversibleBlockNum := by
  cases move <;> rfl

end Move

namespace Controller

/-- The producers of the round, leaving out the empty places. -/
def activeNames (db : Database) : List Address :=
  db.global.activeProducers.toList.filter (· ≠ 0)

/-- The producers of the round are different and known. -/
structure Manned (db : Database) : Prop where
  different : (activeNames db).Nodup
  known : ∀ a ∈ activeNames db, db.producers.find a ≠ none

namespace Manned

variable {block : Applied} {s t : Database}

theorem moves (moves : Moves block s t) (manned : Manned s) : Manned t := by
  refine Moves.keeps (fun s t move kept => ?_) moves manned
  have same : activeNames t = activeNames s := by rw [activeNames, move.global, activeNames]
  refine ⟨same ▸ kept.different, fun a member => move.known (kept.known a ?_)⟩
  rw [← same]
  exact member

theorem admits {ops : List PowOperation} (admits : Admits ops s t) (manned : Manned s) :
    Manned t := by
  induction admits with
  | done => exact manned
  | pass _ ih => exact ih manned
  | @join op rest s mid t first _ ih =>
    obtain ⟨producer, -, found⟩ := first.find
    have same : activeNames mid = activeNames s := by cases first <;> rfl
    refine ih ⟨same ▸ manned.different, fun a member => ?_⟩
    rw [found a]
    split
    · simp
    · exact manned.known a (same ▸ member)

end Manned

theorem toList_setActiveProducers {schedule : List Address} (g : GlobalPropertyObject)
    (size : schedule.length = Config.totalProducersPerRound) :
    (setActiveProducers schedule g).activeProducers.toList = schedule := by
  apply List.ext_getElem
  · rw [Vector.length_toList, size]
  · intro i first second
    simp [setActiveProducers, second]

variable {b : BlockHeader} {db s t : Database} {block : Applied} {blocks : List Applied}
  {count : ℕ} {c : Controller} {initialProducers : List Address}

theorem racing_of_calculateNextRound {db' : Database}
    {schedule : List Address} (ran : (calculateNextRound b).run db = .ok schedule db') :
    db.producerVotes.entries.size ≠ 0 := by
  intro empty
  have failed : Schedule.calculateNextRound.run db = .error .noEnoughProducers db := by
    unfold Schedule.calculateNextRound
    rw [run_get_bind]
    dsimp only
    rw [if_pos empty]
    rfl
  rw [calculateNextRound, bind_error failed] at ran
  cases ran

theorem Manned.choose (genuine : Genuine block) (registry : Registry s) (manned : Manned s)
    (chosen : (updateGlobalProperties block.header).run s = .ok () t) :
    Manned t ∧ (activeNames s ≠ [] → activeNames t ≠ []) := by
  obtain ⟨last, ran, outcome⟩ := updateGlobalProperties_cases block s
  rw [ran] at chosen
  cases chosen
  rcases outcome with moved | ⟨-, schedule, mid, producers, calculated, -, rfl⟩
  · refine ⟨manned.moves moved, fun some_names => ?_⟩
    rw [activeNames, moved.global]
    exact some_names
  · have moved : Moves block s mid := (Moves.calculateNextRound block.header).of_ok calculated
    -- The schedule is the round that the registry promises.
    obtain ⟨round, db', chose, next⟩ := Schedule.run_calculateNextRound genuine registry
      (racing_of_calculateNextRound calculated)
    have shuffled : Schedule.NextRound s schedule := by
      rw [calculateNextRound, bind_ok chose] at calculated
      cases calculated
      exact next.perm (Random.shuffle_perm _ _ (Nat.le_refl _))
    generalize mid.globalProperties.modify (tallyHardfork producers) = cell
    have names : activeNames { mid with
        globalProperties := cell.modify (setActiveProducers schedule) } =
          schedule.filter (· ≠ 0) := by
      change (setActiveProducers schedule cell.value).activeProducers.toList.filter (· ≠ 0) = _
      rw [toList_setActiveProducers cell.value shuffled.size]
    refine ⟨⟨?_, fun a member => ?_⟩, fun _ none_chosen => ?_⟩
    · rw [names]
      exact shuffled.different
    · rw [names, List.mem_filter, decide_eq_true_eq] at member
      have stays := Moves.keeps (I := fun db => db.producers.find a ≠ none)
        (fun _ _ move known => move.known known) moved (shuffled.known a member.1 member.2)
      exact stays
    · obtain ⟨a, member, somebody⟩ := shuffled.somebody
      rw [names] at none_chosen
      have listed : a ∈ schedule.filter (· ≠ 0) :=
        List.mem_filter.mpr ⟨member, by simpa using somebody⟩
      rw [none_chosen] at listed
      cases listed

/-- The blocks of a run are numbered one after another, in the 32 bits the database has for it. -/
def Numbered (blocks : List Applied) : Prop :=
  ∀ i block, blocks[i]? = some block → block.header.num.toNat = i + 1

theorem Numbered.init (numbered : Numbered (blocks ++ [block])) : Numbered blocks := by
  intro i other found
  refine numbered i other ?_
  rw [List.getElem?_append_left (List.getElem?_eq_some_iff.mp found).1]
  exact found

theorem Numbered.last
    (numbered : Numbered (blocks ++ [block])) : block.header.num.toNat = blocks.length + 1 :=
  numbered blocks.length block (by simp)

/-- Producers have confirmed, and the database takes for irreversible, no more than there is. -/
structure Bounded (count : ℕ) (db : Database) : Prop where
  confirmed : AllProducers (fun p => p.lastConfirmedBlockNum.toNat ≤ count) db
  irreversible : db.dynamic.lastIrreversibleBlockNum.toNat ≤ count

theorem lasting_confirmed (number : b.num.toNat ≤ count) :
    Lasting b fun p => p.lastConfirmedBlockNum.toNat ≤ count where
  fresh _ := Nat.zero_le count
  noted a before after noted bounded := by
    rcases noted.confirmed with same | ⟨-, own⟩
    · rw [same]
      exact bounded
    · rw [own]
      exact number

theorem lastIrreversible_moves (moves : Moves block s t) :
    t.dynamic.lastIrreversibleBlockNum = s.dynamic.lastIrreversibleBlockNum :=
  Moves.keeps (I := fun db => db.dynamic.lastIrreversibleBlockNum =
    s.dynamic.lastIrreversibleBlockNum) (fun _ _ move same => move.lastIrreversible.trans same)
    moves rfl

theorem lastIrreversible_admits {ops : List PowOperation} (admits : Admits ops s t) :
    t.dynamic.lastIrreversibleBlockNum = s.dynamic.lastIrreversibleBlockNum := by
  induction admits with
  | done => rfl
  | pass _ ih => exact ih
  | join first _ ih =>
    rw [ih, first.dynamic]
    rfl

theorem lastIrreversible_choose (chosen : (updateGlobalProperties block.header).run s = .ok () t) :
    t.dynamic.lastIrreversibleBlockNum = s.dynamic.lastIrreversibleBlockNum :=
  updateGlobalProperties_keeps (I := fun db => db.dynamic.lastIrreversibleBlockNum =
    s.dynamic.lastIrreversibleBlockNum) (fun _ _ move same => move.lastIrreversible.trans same)
    (fun _ _ same => same) chosen rfl

/-- The share of the producers of the round that stands behind an irreversible block. -/
structure Supermajority (db : Database) (v : U32) : Prop where
  different : (activeNames db).Nodup
  confirmed : ∃ confirmed : List U32,
    (activeNames db).map (fun a => (db.producers.find a).map (·.lastConfirmedBlockNum)) =
      confirmed.map some ∧
    confirmed.length * 3000 / 10000 < confirmed.length ∧
    (confirmed.insertionSort (· ≤ ·))[confirmed.length * 3000 / 10000]? = some v ∧
    7 * confirmed.length ≤ 10 * confirmed.countP (v ≤ ·) ∧
    ∀ w, v < w → confirmed.countP (w ≤ ·) < confirmed.length - confirmed.length * 3000 / 10000

/-- The block that is found to be confirmed has a supermajority behind it. -/
theorem Confirms.supermajority {v : U32} (manned : Manned db)
    (confirms : Confirms db v) : Supermajority db v := by
  obtain ⟨producers, objects, most⟩ := confirms
  refine ⟨manned.different, producers.map (·.lastConfirmedBlockNum), ?_, ?_⟩
  · have mapped := congrArg (List.map (Option.map (·.lastConfirmedBlockNum))) objects
    simp only [List.map_map] at mapped ⊢
    exact mapped
  · unfold confirmedByMost at most
    generalize producers.map (·.lastConfirmedBlockNum) = confirmed at most ⊢
    have offset : Config.percent100 - Config.irreversibleThresholdPercent = 3000 := rfl
    rw [offset, Config.percent100] at most
    -- The entry is there, so the position lies inside the list.
    obtain ⟨inside, -⟩ := List.getElem?_eq_some_iff.mp most
    rw [List.length_insertionSort] at inside
    have enough := OrderStatistic.le_countP (· ≤ ·) most
    refine ⟨inside, most, by omega, fun w beyond => ?_⟩
    exact OrderStatistic.countP_lt (· ≤ ·) most (BitVec.not_le.mpr beyond)

theorem exists_confirms (known : ∀ a ∈ activeNames db, db.producers.find a ≠ none)
    (somebody : activeNames db ≠ []) : ∃ v, Confirms db v := by
  have objects : ∀ names : List Address, (∀ a ∈ names, db.producers.find a ≠ none) →
      ∃ producers : List ProducerObject,
        names.map db.producers.find = producers.map some := by
    intro names known
    induction names with
    | nil => exact ⟨[], rfl⟩
    | cons a rest ih =>
      obtain ⟨producer, found⟩ := Option.ne_none_iff_exists'.mp (known a List.mem_cons_self)
      obtain ⟨producers, others⟩ := ih fun b member => known b (List.mem_cons_of_mem a member)
      exact ⟨producer :: producers, by simp [found, others]⟩
  obtain ⟨producers, found⟩ := objects (activeNames db) known
  -- Three tenths of a list lie inside it unless it is empty.
  have length : producers.length = (activeNames db).length := by
    simpa using (congrArg List.length found).symm
  have positive := List.length_pos_iff.mpr somebody
  have inside : (producers.map (·.lastConfirmedBlockNum)).length *
      (Config.percent100 - Config.irreversibleThresholdPercent) / Config.percent100 <
        ((producers.map (·.lastConfirmedBlockNum)).insertionSort (· ≤ ·)).length := by
    have offset : Config.percent100 - Config.irreversibleThresholdPercent = 3000 := rfl
    rw [offset, Config.percent100, List.length_insertionSort, List.length_map]
    omega
  exact ⟨_, producers, found, List.getElem?_eq_getElem inside⟩

theorem Confirms.le {v : U32} (confirms : Confirms db v)
    (bounded : AllProducers (fun p => p.lastConfirmedBlockNum.toNat ≤ count) db) :
    v.toNat ≤ count := by
  obtain ⟨producers, objects, most⟩ := confirms
  have member := List.mem_of_getElem? most
  rw [List.mem_insertionSort] at member
  obtain ⟨p, inProducers, same⟩ := List.mem_map.mp member
  have listed : some p ∈ producers.map some := List.mem_map_of_mem inProducers
  rw [← objects] at listed
  obtain ⟨a, -, found⟩ := List.mem_map.mp listed
  rw [← same]
  exact bounded a p found

theorem lastIrreversible_settleDb (v : U32) (db : Database) :
    (settleDb v db).dynamic.lastIrreversibleBlockNum.toNat =
      max db.dynamic.lastIrreversibleBlockNum.toNat v.toNat := by
  unfold settleDb
  split
  · next later =>
    rw [BitVec.lt_def] at later
    change v.toNat = _
    omega
  · next earlier =>
    rw [BitVec.lt_def] at earlier
    change db.dynamic.lastIrreversibleBlockNum.toNat = _
    omega

theorem activeNames_ne_nil {m : Controller}
    (opened : (openBlock block.lastBlockId block.view block.header).run c = .ok () m)
    (registry : Registry c.db) : activeNames c.db ≠ [] := by
  obtain ⟨_, m₁, validated, -⟩ := bind_eq_ok.mp opened
  obtain ⟨valid, ran, -⟩ := zoom_eq_ok.mp validated
  obtain ⟨-, turn, known, -⟩ := validateBlockHeader_eq_ok.mp ran
  -- The producer of the block is in the round, and it is somebody.
  have somebody : block.header.producer ≠ 0 := by
    intro null
    rw [null] at known
    exact known registry.nobody.2
  have member : block.header.producer ∈ activeNames c.db := by
    refine List.mem_filter.mpr ⟨?_, by simpa using somebody⟩
    rw [← turn, getScheduledProducer, Vector.mem_toList_iff]
    exact Vector.getElem_mem _
  exact List.ne_nil_of_mem member

/-- What holds between blocks: the round is manned, and nothing is confirmed before it is there. -/
structure Sound (count : ℕ) (db : Database) : Prop where
  manned : Manned db
  bounded : Bounded count db

/-- What holds of a block up to the point where the last irreversible block is brought up to
date, given that it held before. -/
theorem Sound.sign {limit : ℕ} {before checked queued headed chosen signed : Database}
    (genuine : Genuine block)
    (room : limit + block.view.powOps.length < 2 ^ 64) (number : block.header.num.toNat = count + 1)
    (registered : Registered limit before) (sound : Sound count before)
    (check : Moves block before checked) (admitted : Admits block.view.powOps checked queued)
    (follow : Moves block queued headed)
    (choose : (updateGlobalProperties block.header).run headed = .ok () chosen)
    (sign : Moves block chosen signed) :
    Sound (count + 1) signed ∧ (activeNames before ≠ [] → activeNames signed ≠ []) ∧
      signed.dynamic.lastIrreversibleBlockNum = before.dynamic.lastIrreversibleBlockNum := by
  have registry := phased_registered.moves genuine follow
    ((phased_registered.moves genuine check registered).admits genuine admitted room)
  have headedManned := ((sound.manned.moves check).admits admitted).moves follow
  obtain ⟨manned, nonempty⟩ := headedManned.choose genuine registry.toRegistry choose
  have lasting := lasting_confirmed (Nat.le_of_eq number)
  have start : AllProducers (fun p => p.lastConfirmedBlockNum.toNat ≤ count + 1) before :=
    fun a p found => Nat.le_succ_of_le (sound.bounded.confirmed a p found)
  have confirmed := lasting.moves sign (lasting.choose choose
    (lasting.moves follow (lasting.admits admitted (lasting.moves check start))))
  have same : signed.dynamic.lastIrreversibleBlockNum =
      before.dynamic.lastIrreversibleBlockNum := by
    rw [lastIrreversible_moves sign, lastIrreversible_choose choose, lastIrreversible_moves follow,
      lastIrreversible_admits admitted, lastIrreversible_moves check]
  have names : activeNames headed = activeNames before := by
    rw [activeNames, follow.global, admitted.global, check.global, activeNames]
  refine ⟨⟨manned.moves sign, confirmed, ?_⟩, fun some_names => ?_, same⟩
  · rw [same]
    exact Nat.le_succ_of_le sound.bounded.irreversible
  · rw [activeNames, sign.global]
    exact nonempty (names ▸ some_names)

theorem sound_initializeChain
    (started : initializeChain initialProducers = some c) : Sound 0 c.db := by
  have found := find_initializeChain started
  have names : activeNames c.db = genesisProducers initialProducers := by
    rw [activeNames, global_initializeChain started]
    rfl
  refine ⟨⟨?_, fun a member => ?_⟩, fun a p same => ?_, ?_⟩
  · rw [names]
    exact nodup_genesisProducers started
  · rw [names] at member
    rw [(found a).2, if_pos member]
    simp
  · rw [(found a).2] at same
    split at same
    · cases same
      exact Nat.le_refl 0
    · cases same
  · rw [dynamic_initializeChain started]
    exact Nat.le_refl 0

theorem sound_replay (genuine : ∀ block ∈ blocks, Genuine block) (few : collected blocks < 2 ^ 64)
    (numbered : Numbered blocks) (replayed : replay initialProducers blocks = some c) :
    Sound blocks.length c.db := by
  induction blocks using List.reverseRecOn generalizing c with
  | nil =>
    rw [replay_nil] at replayed
    exact sound_initializeChain replayed
  | append_singleton earlier block ih =>
    obtain ⟨m, before, accepted⟩ := replay_concat.mp replayed
    rw [collected_concat] at few
    have others : ∀ b ∈ earlier, Genuine b := fun b member =>
      genuine b (List.mem_append_left _ member)
    have start := ih others (by omega) numbered.init before
    have registered := phased_registered.startUndoSession
      (phased_registered.replay others (by omega) before)
    obtain ⟨checked, queued, headed, chosen, signed, phases⟩ := accept_phases accepted
    obtain ⟨sound, -, -⟩ := Sound.sign (genuine block (by simp)) few numbered.last registered
      ⟨⟨start.manned.different, start.manned.known⟩, start.bounded.confirmed,
        start.bounded.irreversible⟩ phases.check phases.admitted phases.follow phases.choose
        phases.sign
    -- The step that is left takes a block that somebody has confirmed.
    obtain ⟨newLast, confirms, settled⟩ := phases.settle
    rw [settled, List.length_append, List.length_singleton]
    refine ⟨⟨?_, ?_⟩, Lasting.settle newLast sound.bounded.confirmed, ?_⟩
    · rw [activeNames, global_settleDb]
      exact sound.manned.different
    · rw [activeNames, global_settleDb, producers_settleDb]
      exact sound.manned.known
    · rw [lastIrreversible_settleDb]
      exact max_le sound.bounded.irreversible (confirms.le sound.bounded.confirmed)

/-- A block that follows a run has come to the point where the last irreversible block is brought
up to date. -/
structure Signing (initialProducers : List Address) (blocks : List Applied) (block : Applied)
    (p : Controller) : Prop where
  steps : ∃ c m headed chosen, replay initialProducers blocks = some c ∧
    (openBlock block.lastBlockId block.view block.header).run
      { c with db := c.db.startUndoSession } = .ok () m ∧
    (updateGlobalDynamicData block.header).run m.db = .ok () headed ∧
    (updateGlobalProperties block.header).run headed = .ok () chosen ∧
    (updateSigningProducer block.header).run chosen = .ok () p.db

theorem exists_signing {d : Controller} (replayed : replay initialProducers blocks = some c)
    (accepted : c.accept block = some d) : ∃ p, Signing initialProducers blocks block p := by
  obtain ⟨m, headed, chosen, signed, -, opened, headedRan, choice, signedRan, -, -⟩ :=
    accept_steps accepted
  exact ⟨{ m with db := signed }, c, m, headed, chosen, replayed, opened, headedRan, choice,
    signedRan⟩

theorem Signing.head {p : Controller} (signing : Signing initialProducers blocks block p) :
    p.db.dynamic.headBlockNumber = block.header.num := by
  obtain ⟨c, m, headed, chosen, -, -, headedRan, choice, signed⟩ := signing.steps
  have round : SameClock headed chosen := (raceFrame_sameClock.notes.updateGlobalProperties
    raceFrame_sameClock.tracks.advanceRace block.header).of_ok choice
  have noted : SameClock chosen p.db :=
    (raceFrame_sameClock.updateSigningProducer block.header).of_ok signed
  exact congrArg (·.1) ((Eq.trans noted round).trans (clock_updateGlobalDynamicData headedRan))

/-- In every run, bringing the last irreversible block up to date returns. It takes the later of the
old block and the latest that a supermajority of the round has confirmed, and never goes beyond
the head. -/
theorem updateLastIrreversibleBlock_of_run {initialProducers : List Address}
    {blocks : List Applied} {block : Applied} {p : Controller}
    (genuine : ∀ b ∈ blocks ++ [block], Genuine b) (few : collected (blocks ++ [block]) < 2 ^ 64)
    (numbered : Numbered (blocks ++ [block]))
    (signing : Signing initialProducers blocks block p) :
    ∃ v d, updateLastIrreversibleBlock.run p = .ok () d ∧ Supermajority p.db v ∧
      d.db.dynamic.lastIrreversibleBlockNum.toNat =
        max p.db.dynamic.lastIrreversibleBlockNum.toNat v.toNat ∧
      d.db.dynamic.lastIrreversibleBlockNum.toNat ≤ d.db.dynamic.headBlockNumber.toNat := by
  have head := signing.head
  obtain ⟨c, m, headed, chosen, replayed, opened, headedRan, choice, signedRan⟩ := signing.steps
  rw [collected_concat] at few
  have others : ∀ b ∈ blocks, Genuine b := fun b member => genuine b (List.mem_append_left _ member)
  have registered := phased_registered.startUndoSession
    (phased_registered.replay others (by omega) replayed)
  have start := sound_replay others (by omega) numbered.init replayed
  obtain ⟨checked, queued, check, admitted, follow⟩ := openBlock_phases opened
  have headMoves : Moves block m.db headed := Moves.updateGlobalDynamicData.of_ok headedRan
  obtain ⟨sound, nonempty, -⟩ := Sound.sign (genuine block (by simp)) few numbered.last registered
    ⟨⟨start.manned.different, start.manned.known⟩, start.bounded.confirmed,
      start.bounded.irreversible⟩ check admitted (Moves.trans _ _ _ follow headMoves) choice
    (Moves.updateSigningProducer.of_ok signedRan)
  have somebody := activeNames_ne_nil opened registered.toRegistry
  obtain ⟨v, confirms⟩ := exists_confirms sound.manned.known (nonempty somebody)
  refine ⟨v, _, updateLastIrreversibleBlock_eq_ok.mpr ⟨v, confirms, rfl⟩,
    confirms.supermajority sound.manned, by rw [db_settle, lastIrreversible_settleDb], ?_⟩
  -- Both blocks that the later one is taken of are there.
  have last : (settleDb v p.db).dynamic.headBlockNumber = block.header.num := by
    rw [← head]
    unfold settleDb
    split <;> rfl
  rw [db_settle, last, lastIrreversible_settleDb, numbered.last]
  exact max_le sound.bounded.irreversible (confirms.le sound.bounded.confirmed)

/-- The first block of the only producer becomes irreversible at once. -/
theorem updateLastIrreversibleBlock_of_run_sole : ∃ p v d,
    Signing [100] [] (soleBlock 1 1513580387) p ∧
    updateLastIrreversibleBlock.run p = .ok () d ∧ Supermajority p.db v ∧
    d.db.dynamic.lastIrreversibleBlockNum.toNat =
      max p.db.dynamic.lastIrreversibleBlockNum.toNat v.toNat ∧
    d.db.dynamic.lastIrreversibleBlockNum.toNat ≤ d.db.dynamic.headBlockNumber.toNat := by
  have accepts : (replay [100] ([] ++ [soleBlock 1 1513580387])).isSome = true := by decide +kernel
  obtain ⟨last, replayed⟩ := Option.isSome_iff_exists.mp accepts
  obtain ⟨c, start, accepted⟩ := replay_concat.mp replayed
  obtain ⟨p, signing⟩ := exists_signing start accepted
  have genuine : ∀ b ∈ [] ++ [soleBlock 1 1513580387], Genuine b := by
    intro b member
    rw [List.nil_append, List.mem_singleton] at member
    subst member
    exact ⟨by simp [soleBlock, Applied.signed, Applied.Candidate],
      by simp [soleBlock, Applied.signed]⟩
  have numbered : Numbered ([] ++ [soleBlock 1 1513580387]) := by
    rintro (_ | i) b found
    · cases found
      decide
    · cases found
  obtain ⟨v, d, ran, facts⟩ := updateLastIrreversibleBlock_of_run genuine (by decide) numbered
    signing
  exact ⟨p, v, d, signing, ran, facts⟩

end Controller

end Etiam
