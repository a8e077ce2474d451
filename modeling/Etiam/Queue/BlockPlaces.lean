import Etiam.Queue.BlockReady

/-! Each block is in one place of the block queue, and the queue tells in which. -/

namespace Etiam

namespace BlockQueue

variable {α : Type} {facts : BlockFacts α} {q p : BlockQueue α}

/-- No block is in two of the sets, and none of another time is known to be bad. -/
structure Apart (q : BlockQueue α) : Prop where
  ready : ∀ h ∈ q.readySet, h ∉ q.drainingSet
  unknown : ∀ h ∈ q.unknownSet, h ∉ q.drainingSet
  future : ∀ h ∈ q.futureSet, h ∉ q.readySet ∧ h ∉ q.drainingSet ∧ h ∉ q.unknownSet ∧
    h ∉ q.knownBad

theorem Shed.apart {reported gone taken : Finset Hash} (shed : Shed facts q p reported gone taken)
    (apart : q.Apart) (known : ∀ h ∈ reported, h ∉ q.futureSet) : p.Apart where
  ready := by
    intro h ready
    rw [shed.readySet] at ready
    rw [shed.drainingSet]
    exact apart.ready h (Finset.mem_sdiff.mp ready).1
  unknown := by
    intro h waiting
    rw [shed.unknownSet] at waiting
    rw [shed.drainingSet]
    exact apart.unknown h (Finset.mem_sdiff.mp waiting).1
  future := by
    intro h later
    rw [shed.futureSet] at later
    obtain ⟨unready, undrained, new, good⟩ := apart.future h later
    rw [shed.readySet, shed.drainingSet, shed.unknownSet, shed.knownBad]
    refine ⟨?_, undrained, ?_, ?_⟩
    · exact fun ready => unready (Finset.mem_sdiff.mp ready).1
    · exact fun waiting => new (Finset.mem_sdiff.mp waiting).1
    · -- What becomes bad was reported, or was ready or waiting before.
      simp only [Finset.mem_union, not_or]
      refine ⟨good, ⟨fun reported => known h reported later, ?_⟩, ?_⟩
      · intro leaves
        obtain ready | reported := shed.gone_ready h leaves
        · exact unready ready
        · exact known h reported later
      · exact fun collected => new (shed.taken_unknown collected)

theorem Apart.note (apart : q.Apart) {bad : Finset Hash}
    (noted : ∀ h ∈ q.futureSet, h ∉ bad) :
    ({ q with knownBad := bad } : BlockQueue α).Apart :=
  ⟨apart.ready, apart.unknown, fun h later =>
    ⟨(apart.future h later).1, (apart.future h later).2.1, (apart.future h later).2.2.1,
      noted h later⟩⟩

theorem Imported.apart {chain : Finset Hash} {b : α} (imported : Imported facts chain q b p)
    (sound : q.Sound facts) (apart : q.Apart) (fits : q.FitsImport facts b)
    (new : facts.hash b ∉ q.futureSet) : p.Apart := by
  cases imported with
  | refused => exact apart
  | future fresh =>
    obtain ⟨unready, undrained, unknown, good⟩ := isKnown_eq_false.mp fresh
    refine ⟨apart.ready, apart.unknown, ?_⟩
    intro h later
    obtain rfl | before := Finset.mem_insert.mp later
    · exact ⟨unready, undrained, unknown, good⟩
    · exact apart.future h before
  | bad fresh parent =>
    obtain ⟨gone, taken, shed, -⟩ := sound.updateBad_child fits fresh parent
    refine shed.apart (apart.note ?_) (by simp)
    intro h later noted
    obtain rfl | known := Finset.mem_insert.mp noted
    · exact new later
    · exact (apart.future h later).2.2.2 known
  | unknown fresh unchained parent detached =>
    obtain ⟨-, undrained, -, -⟩ := isKnown_eq_false.mp fresh
    refine ⟨apart.ready, ?_, ?_⟩
    · intro h waiting
      obtain rfl | before := Finset.mem_insert.mp waiting
      · exact undrained
      · exact apart.unknown h before
    · intro h later
      obtain ⟨unready, out, unknown, good⟩ := apart.future h later
      refine ⟨unready, out, ?_, good⟩
      rw [Finset.mem_insert, not_or]
      exact ⟨fun same => new (same ▸ later), unknown⟩
  | ready fresh unchained parent attached =>
    obtain ⟨-, undrained, -, -⟩ := isKnown_eq_false.mp fresh
    -- What becomes ready is the block itself or has waited.
    have arrives : ∀ h ∈ (q.admitted facts b).readySet,
        h ∈ q.readySet ∨ h = facts.hash b ∨ h ∈ q.unknownSet := by
      intro h ready
      rw [readySet_admitted, Finset.mem_union] at ready
      refine ready.imp_right fun arrives => ?_
      obtain ⟨u, member, rfl⟩ := BlockFacts.mem_hashes.mp arrives
      obtain rfl | taken := List.mem_cons.mp member
      · exact Or.inl rfl
      · exact Or.inr (descendants_waiting sound taken)
    refine ⟨?_, ?_, ?_⟩
    · intro h ready
      obtain before | rfl | waiting := arrives h ready
      · exact apart.ready h before
      · exact undrained
      · exact apart.unknown h waiting
    · exact fun h waiting => apart.unknown h (Finset.mem_sdiff.mp waiting).1
    · intro h later
      obtain ⟨unready, out, unknown, good⟩ := apart.future h later
      refine ⟨?_, out, fun waiting => unknown (Finset.mem_sdiff.mp waiting).1, good⟩
      intro ready
      obtain before | rfl | waiting := arrives h ready
      · exact unready before
      · exact new later
      · exact unknown waiting

/-- The arrival of a block leaves the blocks of another time alone, or adds the block to them. -/
theorem Imported.future_eq {chain : Finset Hash} {b : α} (imported : Imported facts chain q b p)
    (sound : q.Sound facts) (fits : q.FitsImport facts b) :
    (p.future = q.future ∧ p.futureSet = q.futureSet) ∨
      (p.future = q.future ++ [b] ∧ p.futureSet = insert (facts.hash b) q.futureSet) := by
  cases imported with
  | refused => exact Or.inl ⟨rfl, rfl⟩
  | future fresh => exact Or.inr ⟨rfl, rfl⟩
  | bad fresh parent =>
    obtain ⟨gone, taken, shed, -⟩ := sound.updateBad_child fits fresh parent
    exact Or.inl ⟨shed.future, shed.futureSet⟩
  | unknown => exact Or.inl ⟨rfl, rfl⟩
  | ready => exact Or.inl ⟨rfl, rfl⟩

variable (facts q) in
theorem drain_future (max : ℕ) : (q.drain facts max).2.future = q.future ∧
    (q.drain facts max).2.futureSet = q.futureSet := by
  unfold BlockQueue.drain
  split <;> exact ⟨rfl, rfl⟩

theorem Sound.finishWork_future {work : α} (sound : q.Sound facts)
    (tracked : q.Tracked facts work) :
    (q.finishWork facts work).future = q.future ∧
      (q.finishWork facts work).futureSet = q.futureSet := by
  obtain ⟨-, gone, shed⟩ | ⟨gone, shed⟩ := sound.finishWork_cases tracked
  · exact ⟨shed.future, shed.futureSet⟩
  · exact ⟨shed.future, shed.futureSet⟩

theorem Sound.drain_apart (sound : q.Sound facts) (apart : q.Apart) (max : ℕ) :
    (q.drain facts max).2.Apart := by
  unfold BlockQueue.drain
  split
  · have out : ∀ h ∈ facts.hashes (q.verified.take max), h ∈ q.readySet := by
      intro h handed
      obtain ⟨b, member, rfl⟩ := BlockFacts.mem_hashes.mp handed
      exact sound.ready_of_mem (mem_line_of_verified (List.mem_of_mem_take member))
    refine ⟨?_, ?_, ?_⟩
    · exact fun h ready => (Finset.mem_sdiff.mp ready).2
    · exact fun h waiting handed => sound.ready_apart (out h handed) waiting
    · intro h later
      obtain ⟨unready, -, unknown, good⟩ := apart.future h later
      exact ⟨fun ready => unready (Finset.mem_sdiff.mp ready).1,
        fun handed => unready (out h handed), unknown, good⟩
  · exact apart

theorem Sound.finishWork_apart {work : α} (sound : q.Sound facts) (apart : q.Apart)
    (tracked : q.Tracked facts work) : (q.finishWork facts work).Apart := by
  obtain ⟨-, gone, shed⟩ | ⟨gone, shed⟩ := sound.finishWork_cases tracked
  · exact shed.apart ⟨apart.ready, apart.unknown, apart.future⟩ (by simp)
  · refine shed.apart apart ?_
    intro h reported later
    obtain rfl := Finset.mem_singleton.mp reported
    obtain ⟨unready, -, -, good⟩ := apart.future _ later
    obtain pending | ⟨bad, -⟩ := tracked
    · exact unready (sound.ready_of_mem (mem_line_of_verifying pending))
    · exact good bad

end BlockQueue

namespace BlockSystem

variable {α : Type} {facts : BlockFacts α} {s t : BlockSystem α}

/-- Each block is in one place, and those of another time are the ones that are noted so. -/
structure Placed (facts : BlockFacts α) (s : BlockSystem α) : Prop where
  sound : s.Sound facts
  apart : s.queue.Apart
  distinct : ((s.queue.future ++ s.forgetting).map facts.hash).Nodup
  futureSet : s.queue.futureSet = facts.hashes (s.queue.future ++ s.forgetting)

/-- A careful action that does not forget everything, and does not bring or report a block that
waits for its time. -/
def Placing (facts : BlockFacts α) (s : BlockSystem α) (a : Action α) : Prop :=
  s.Careful facts a ∧
    match a with
    | .importBlock b _ _ _ => facts.hash b ∉ s.queue.futureSet
    | .tickImport i _ _ => ∀ b ∈ s.returning[i]?, facts.hash b ∉ s.queue.futureSet
    | .doneDrain bad => ∀ h ∈ bad, h ∉ s.queue.futureSet
    | .clear => False
    | _ => True

instance (facts : BlockFacts α) (s : BlockSystem α) : (a : Action α) → Decidable (s.Placing facts a)
  | .importBlock .. | .tickImport .. | .doneDrain _ | .clear | .takeWork | .finishWork _ | .drain _
  | .tick _ | .tickForget _ | .extend _ => inferInstanceAs (Decidable (_ ∧ _))

theorem Placed.of_same (placed : s.Placed facts) (sound : t.Sound facts) (apart : t.queue.Apart)
    (forgetting : t.forgetting = s.forgetting)
    (same : t.queue.future = s.queue.future ∧ t.queue.futureSet = s.queue.futureSet) :
    t.Placed facts := by
  refine ⟨sound, apart, ?_, ?_⟩
  · rw [forgetting, same.1]
    exact placed.distinct
  · rw [forgetting, same.1, same.2]
    exact placed.futureSet

theorem Placed.arrive {b : α} {isOurs irreversible : Bool} {now : ℕ} (placed : s.Placed facts)
    (fits : s.queue.FitsImport facts b) (new : facts.hash b ∉ s.queue.futureSet) :
    (s.arrive facts b isOurs irreversible now).Placed facts := by
  have imported := BlockQueue.importBlock_imported facts s.queue s.chain b isOurs irreversible now
  have sound : (s.arrive facts b isOurs irreversible now).Sound facts := placed.sound.arrive fits
  have apart := imported.apart placed.sound.queue placed.apart fits new
  obtain same | ⟨future, futureSet⟩ := imported.future_eq placed.sound.queue fits
  · exact placed.of_same sound apart rfl same
  · -- The new block goes between the others, which all have other hashes.
    have perm : ((s.queue.future ++ [b]) ++ s.forgetting).Perm
        (b :: (s.queue.future ++ s.forgetting)) := by
      rw [List.append_assoc, List.singleton_append]
      exact List.perm_middle
    refine ⟨sound, apart, ?_, ?_⟩
    · change (((s.queue.importBlock facts s.chain b isOurs irreversible now).2.future ++
        s.forgetting).map facts.hash).Nodup
      rw [future, (perm.map facts.hash).nodup_iff, List.map_cons, List.nodup_cons]
      refine ⟨?_, placed.distinct⟩
      rwa [BlockFacts.mem_map_hash, ← placed.futureSet]
    · change (s.queue.importBlock facts s.chain b isOurs irreversible now).2.futureSet =
        facts.hashes ((s.queue.importBlock facts s.chain b isOurs irreversible now).2.future ++
          s.forgetting)
      rw [futureSet, future, placed.futureSet, BlockFacts.hashes_perm perm, BlockFacts.hashes_cons]

theorem Placed.step {a : Action α} (placed : s.Placed facts) (placing : s.Placing facts a)
    (taken : step facts a s = some t) : t.Placed facts := by
  -- The waiting blocks change only where one arrives or the clock ticks.
  have sound := placed.sound.step placing.1 taken
  cases a with
  | importBlock b isOurs irreversible now =>
    obtain rfl := Option.some.inj taken
    exact placed.arrive placing.1 placing.2
  | takeWork =>
    obtain ⟨⟨work, queue⟩, given, result⟩ := Option.bind_eq_some_iff.mp taken
    obtain rfl := Option.some.inj result
    obtain ⟨rest, split, rfl⟩ := BlockQueue.takeWork_eq_some given
    refine placed.of_same sound ?_ rfl ⟨rfl, rfl⟩
    exact ⟨placed.apart.ready, placed.apart.unknown, placed.apart.future⟩
  | finishWork i =>
    obtain ⟨work, found, result⟩ := Option.bind_eq_some_iff.mp taken
    obtain rfl := Option.some.inj result
    have tracked := placed.sound.working work (List.mem_of_getElem? found)
    exact placed.of_same sound (placed.sound.queue.finishWork_apart placed.apart tracked) rfl
      (placed.sound.queue.finishWork_future tracked)
  | drain max =>
    rw [step_drain, Option.some.injEq] at taken
    subst taken
    exact placed.of_same sound (placed.sound.queue.drain_apart placed.apart max) rfl
      (BlockQueue.drain_future facts s.queue max)
  | doneDrain bad =>
    obtain rfl := Option.some.inj taken
    obtain ⟨gone, taken, shed, -⟩ := placed.sound.queue.doneDrain placing.1
    refine placed.of_same sound (shed.apart ?_ (by simp)) rfl ⟨shed.future, shed.futureSet⟩
    refine ⟨fun _ _ => Finset.notMem_empty _, fun _ _ => Finset.notMem_empty _, ?_⟩
    intro h later
    obtain ⟨unready, -, unknown, good⟩ := placed.apart.future h later
    refine ⟨unready, Finset.notMem_empty _, unknown, ?_⟩
    simp only [Finset.mem_union, List.mem_toFinset, not_or]
    exact ⟨good, fun reported => placing.2 h reported later⟩
  | tick now =>
    obtain rfl := Option.some.inj taken
    have later : (s.queue.future.filter fun b => !decide (facts.futureKey b ≤ now)) =
        s.queue.future.filter fun b => now < facts.futureKey b := by
      refine List.filter_congr fun b _ => ?_
      simp only [← decide_not, not_le]
    have perm : ((s.queue.future.filter fun b => now < facts.futureKey b) ++
        (s.forgetting ++ s.queue.future.filter fun b => facts.futureKey b ≤ now)).Perm
          (s.queue.future ++ s.forgetting) := by
      rw [← List.append_assoc]
      refine List.perm_append_comm.trans ?_
      rw [← List.append_assoc, ← later]
      exact (List.filter_append_perm _ _).append_right _
    refine ⟨sound, ⟨placed.apart.ready, placed.apart.unknown, placed.apart.future⟩, ?_, ?_⟩
    · exact (perm.map facts.hash).nodup_iff.mpr placed.distinct
    · exact placed.futureSet.trans (BlockFacts.hashes_perm perm).symm
  | tickForget i =>
    obtain ⟨b, found, result⟩ := Option.bind_eq_some_iff.mp taken
    obtain rfl := Option.some.inj result
    obtain ⟨inside, rfl⟩ := List.getElem?_eq_some_iff.mp found
    have perm : (s.queue.future ++ s.forgetting).Perm
        (s.forgetting[i] :: (s.queue.future ++ s.forgetting.eraseIdx i)) :=
      ((List.getElem_cons_eraseIdx_perm inside).symm.append_left _).trans List.perm_middle
    have distinct := (perm.map facts.hash).nodup_iff.mp placed.distinct
    rw [List.map_cons, List.nodup_cons] at distinct
    refine ⟨sound, ⟨placed.apart.ready, placed.apart.unknown, ?_⟩, distinct.2, ?_⟩
    · exact fun h later => placed.apart.future h (Finset.mem_of_mem_erase later)
    · change s.queue.futureSet.erase _ = _
      rw [placed.futureSet, BlockFacts.hashes_perm perm, BlockFacts.hashes_cons,
        Finset.erase_insert (fun member => distinct.1 (BlockFacts.mem_map_hash.mpr member))]
  | tickImport i irreversible now =>
    obtain ⟨b, found, result⟩ := Option.bind_eq_some_iff.mp taken
    obtain rfl := Option.some.inj result
    refine Placed.arrive (s := { s with returning := s.returning.eraseIdx i }) ?_
      (placing.1 b found) (placing.2 b found)
    exact ⟨⟨placed.sound.queue, placed.sound.hopeful, placed.sound.working, placed.sound.distinct⟩,
      placed.apart, placed.distinct, placed.futureSet⟩
  | clear => exact placing.2.elim
  | extend i =>
    obtain ⟨b, found, result⟩ := Option.bind_eq_some_iff.mp taken
    obtain rfl := Option.some.inj result
    exact ⟨sound, placed.apart, placed.distinct, placed.futureSet⟩

theorem placed_start (chain : Finset Hash) : (start chain : BlockSystem α).Placed facts := by
  refine ⟨sound_start chain, ⟨?_, ?_, ?_⟩, List.nodup_nil, rfl⟩ <;>
    simp [start, BlockQueue.empty]

/-- Where no block is brought or reported that waits for its time, each block is in one place of the
queue and once there, and the queue tells in which. -/
theorem blocks_in_one_place {chain : Finset Hash} {actions : List (Action α)}
    (placing : Runs.Along (BlockSystem.step facts) (Placing facts) actions (start chain))
    (ran : Runs.run (BlockSystem.step facts) actions (start chain) = some t) :
    ((t.queue.line facts).map Prod.fst).Nodup ∧ (t.queue.unknown.map facts.hash).Nodup ∧
    (t.queue.future.map facts.hash).Nodup ∧
    t.queue.unknownSet = facts.hashes t.queue.unknown ∧
    t.queue.futureSet = facts.hashes (t.queue.future ++ t.forgetting) ∧
    (∀ h, t.queue.blockStatus h = .ready ↔ h ∈ (t.queue.line facts).map Prod.fst) ∧
    (∀ h, t.queue.blockStatus h = .importing ↔ h ∈ t.queue.drainingSet) ∧
    (∀ h, t.queue.blockStatus h = .unknownParent ↔ h ∈ t.queue.unknown.map facts.hash) ∧
    ∀ h, t.queue.blockStatus h = .future ↔
      h ∈ (t.queue.future ++ t.forgetting).map facts.hash := by
  have placed : t.Placed facts := Runs.keeps
    (fun _ _ _ placed fits taken => Placed.step placed fits taken) (placed_start chain) placing ran
  have sound := placed.sound.queue
  have distinct := placed.distinct
  rw [List.map_append, List.nodup_append] at distinct
  refine ⟨sound.distinct, sound.unknown_distinct, distinct.1, sound.unknownSet, placed.futureSet,
    ?_, ?_, ?_, ?_⟩
  · intro h
    rw [← sound.ready]
    unfold BlockQueue.blockStatus
    split_ifs <;> simp_all
  · intro h
    have apart := placed.apart.ready h
    unfold BlockQueue.blockStatus
    split_ifs <;> simp_all
  · intro h
    rw [BlockFacts.mem_map_hash, ← sound.unknownSet]
    have apart := placed.apart.unknown h
    have ready := sound.ready_apart (h := h)
    unfold BlockQueue.blockStatus
    split_ifs <;> simp_all
  · intro h
    rw [BlockFacts.mem_map_hash, ← placed.futureSet]
    have apart := placed.apart.future h
    unfold BlockQueue.blockStatus
    split_ifs <;> simp_all

/-- Blocks of four places: one handed out, one ready, one that waits for its parent and one for its
time, which then comes. -/
def samplePlaces : List (Action (Fin 6)) :=
  [.importBlock 0 false false 10, .importBlock 4 false false 10, .importBlock 3 false false 10,
    .importBlock 2 false false 10, .takeWork, .finishWork 0, .drain 1, .tick 100, .tickForget 0,
    .tickImport 0 false 100]

/-- A run in which a block comes due. -/
theorem blocks_in_one_place_due : ∃ t, sampleRun samplePlaces = some t ∧
    ∀ h, t.queue.blockStatus h = .ready ↔ h ∈ (t.queue.line sampleFacts).map Prod.fst := by
  obtain ⟨t, ran⟩ := Option.isSome_iff_exists.mp
    (show (sampleRun samplePlaces).isSome = true by decide +kernel)
  exact ⟨t, ran, (blocks_in_one_place (by decide +kernel) ran).2.2.2.2.2.1⟩

/-- A block of another time that comes again is held twice, or held and ready, and a block that was
taken out in place of another one is said to be ready though it is nowhere. -/
theorem blocks_in_two_places :
    (sampleRun [.importBlock 4 false false 10, .importBlock 4 false false 10]).map
        (fun s => s.queue.future) = some [4, 4] ∧
      (sampleRun [.importBlock 4 false false 10, .importBlock 4 true false 10]).map
        (fun s => (s.queue.future, s.queue.unverified)) = some ([4], [4]) ∧
      (sampleRun (sampleImports [0, 1, 2] ++ [.drain 1, .doneDrain [10]])).map
        (fun s => (s.queue.blockStatus 11, s.queue.knownCount, s.queue.unknown.length,
          s.queue.future.length)) = some (.ready, 0, 0, 0) := by
  decide +kernel

end BlockSystem

end Etiam
