import Etiam.Queue.BlockSteps

/-! Which blocks of the queue are ready, over every interleaving of the threads that use it. -/

namespace Etiam

namespace BlockQueue

variable {α : Type} {facts : BlockFacts α} {q p : BlockQueue α}

/-- Nothing waits for a block that is bad. -/
def Hopeful (facts : BlockFacts α) (q : BlockQueue α) : Prop :=
  ∀ u ∈ q.unknown, facts.parentHash u ∉ q.knownBad

theorem Shed.hopeful {reported gone taken : Finset Hash}
    (shed : Shed facts q p reported gone taken) (sound : q.Sound facts) (hopeful : q.Hopeful facts)
    (others : ∀ u ∈ p.unknown, facts.parentHash u ∉ reported ∧ facts.parentHash u ∉ taken) :
    p.Hopeful facts := by
  intro u waiting bad
  have before : u ∈ q.unknown := by
    rw [shed.unknown] at waiting
    exact List.mem_of_mem_filter waiting
  obtain ⟨unreported, untaken⟩ := others u waiting
  simp only [shed.knownBad, Finset.mem_union] at bad
  obtain known | (reported | leaves) | taken := bad
  · exact hopeful u before known
  · exact unreported reported
  · -- What leaves the line was ready, and nothing waited for it.
    obtain ready | reported := shed.gone_ready _ leaves
    · exact sound.parents u before ready
    · exact unreported reported
  · exact untaken taken

theorem Tracked.mono {w : α} {bad drainingSet futureSet : Finset Hash} {future : List α}
    (tracked : q.Tracked facts w) (more : q.knownBad ⊆ bad) :
    ({ q with
      drainingSet := drainingSet
      knownBad := bad
      futureSet := futureSet
      future := future } : BlockQueue α).Tracked facts w :=
  tracked.imp_right fun out => ⟨more out.1, out.2⟩

/-- A new block with a bad parent comes only when the bad blocks stand last. -/
def FitsImport (facts : BlockFacts α) (q : BlockQueue α) (b : α) : Prop :=
  q.isKnown (facts.hash b) = false → facts.parentHash b ∈ q.knownBad →
    ({ q with knownBad := insert (facts.hash b) q.knownBad } : BlockQueue α).Sweepable facts

/-- What is reported as bad comes only when the bad blocks stand last. -/
def FitsReport (facts : BlockFacts α) (q : BlockQueue α) (bad : List Hash) : Prop :=
  bad = [] ∨ ({ q with
    drainingSet := ∅
    knownBad := q.knownBad ∪ bad.toFinset } : BlockQueue α).Sweepable facts

instance (b : α) : Decidable (q.FitsImport facts b) :=
  inferInstanceAs (Decidable (_ → _ → _))

instance (bad : List Hash) : Decidable (q.FitsReport facts bad) :=
  inferInstanceAs (Decidable (_ ∨ _))

section Import

variable {chain : Finset Hash} {b : α}

theorem Sound.updateBad_child (sound : q.Sound facts) (fits : q.FitsImport facts b)
    (fresh : q.isKnown (facts.hash b) = false) (parent : facts.parentHash b ∈ q.knownBad) :
    ∃ gone taken, Shed facts { q with knownBad := insert (facts.hash b) q.knownBad }
        (updateBad facts { q with knownBad := insert (facts.hash b) q.knownBad } (facts.hash b))
        ∅ gone taken ∧
      (updateBad facts { q with knownBad := insert (facts.hash b) q.knownBad }
        (facts.hash b)).Clean facts ∧
      (updateBad facts { q with knownBad := insert (facts.hash b) q.knownBad }
        (facts.hash b)).verified ⊆ q.verified ∧
      ∀ u ∈ (updateBad facts { q with knownBad := insert (facts.hash b) q.knownBad }
        (facts.hash b)).unknown, facts.parentHash u ≠ facts.hash b ∧
          facts.parentHash u ∉ gone ∧ facts.parentHash u ∉ taken :=
  (fits fresh parent).updateBad (sound.setOthers _ _ _ _) (facts.hash b)

variable (imported : Imported facts chain q b p)

include imported

theorem Imported.sound (sound : q.Sound facts) (fits : q.FitsImport facts b) : p.Sound facts := by
  cases imported with
  | refused => exact sound
  | future => exact sound.setOthers _ _ _ _
  | bad fresh parent =>
    obtain ⟨gone, taken, shed, -⟩ := sound.updateBad_child fits fresh parent
    exact shed.sound (sound.setOthers _ _ _ _)
  | unknown fresh unchained parent detached =>
    obtain ⟨unready, -, new, -⟩ := isKnown_eq_false.mp fresh
    exact sound.postpone unready new (attached_eq_false.mp detached).1
  | ready fresh unchained parent attached =>
    obtain ⟨unready, -, new, -⟩ := isKnown_eq_false.mp fresh
    exact sound.admitted unready new

theorem Imported.hopeful (sound : q.Sound facts) (hopeful : q.Hopeful facts)
    (fits : q.FitsImport facts b) : p.Hopeful facts := by
  cases imported with
  | refused => exact hopeful
  | future => exact hopeful
  | bad fresh parent =>
    obtain ⟨gone, taken, shed, -, -, closed⟩ := sound.updateBad_child fits fresh parent
    intro u waiting bad
    obtain ⟨other, stays, untaken⟩ := closed u waiting
    simp only [shed.knownBad, Finset.mem_union, Finset.mem_insert] at bad
    obtain (same | known) | (reported | leaves) | collected := bad
    · exact other same
    · rw [shed.unknown] at waiting
      exact hopeful u (List.mem_of_mem_filter waiting) known
    · exact Finset.notMem_empty _ reported
    · exact stays leaves
    · exact untaken collected
  | unknown fresh unchained parent detached =>
    intro u waiting
    obtain before | single := List.mem_append.mp waiting
    · exact hopeful u before
    · rwa [List.mem_singleton.mp single]
  | ready fresh unchained parent attached =>
    intro u waiting
    change u ∈ (q.admitted facts b).unknown at waiting
    rw [unknown_admitted sound] at waiting
    exact hopeful u (List.mem_of_mem_filter waiting)

theorem Imported.tracked {w : α} (sound : q.Sound facts) (fits : q.FitsImport facts b)
    (tracked : q.Tracked facts w) : p.Tracked facts w := by
  cases imported with
  | refused => exact tracked
  | future => exact tracked
  | bad fresh parent =>
    obtain ⟨gone, taken, shed, -⟩ := sound.updateBad_child fits fresh parent
    exact shed.tracked (sound.setOthers _ _ _ _) (tracked.mono (Finset.subset_insert _ _))
  | unknown fresh unchained parent detached =>
    obtain ⟨-, -, -, good⟩ := isKnown_eq_false.mp fresh
    refine tracked.imp_right fun out => ⟨out.1, out.2.1, ?_⟩
    rw [Finset.mem_insert, not_or]
    exact ⟨fun same => good (same ▸ out.1), out.2.2⟩
  | ready fresh unchained parent attached =>
    obtain ⟨-, -, -, good⟩ := isKnown_eq_false.mp fresh
    refine tracked.imp_right fun out => ⟨out.1, ?_, ?_⟩
    · change _ ∉ (q.admitted facts b).readySet
      rw [readySet_admitted, Finset.mem_union, not_or]
      refine ⟨out.2.1, fun arrives => ?_⟩
      obtain ⟨u, member, same⟩ := BlockFacts.mem_hashes.mp arrives
      obtain rfl | taken := List.mem_cons.mp member
      · exact good (same ▸ out.1)
      · exact out.2.2 (same ▸ descendants_waiting sound taken)
    · exact fun waiting => out.2.2 (Finset.mem_sdiff.mp waiting).1

end Import

theorem Sound.doneDrain {bad : List Hash} (sound : q.Sound facts)
    (fits : q.FitsReport facts bad) :
    ∃ gone taken, Shed facts
        { q with drainingSet := ∅, knownBad := q.knownBad ∪ bad.toFinset }
        (q.doneDrain facts bad).2 ∅ gone taken ∧
      (bad ≠ [] → (q.doneDrain facts bad).2.Clean facts) ∧
      (q.doneDrain facts bad).2.verified ⊆ q.verified ∧
      ∀ u ∈ (q.doneDrain facts bad).2.unknown, facts.parentHash u ∉ bad ∧
        facts.parentHash u ∉ gone ∧ facts.parentHash u ∉ taken := by
  obtain rfl | sweepable := fits
  · exact ⟨∅, ∅, Shed.refl _, fun some => absurd rfl some, fun _ => id, by simp⟩
  · exact sweepable.foldl_updateBad (sound.setOthers _ _ _ _) bad

theorem Sound.doneDrain_hopeful {bad : List Hash} (sound : q.Sound facts)
    (hopeful : q.Hopeful facts) (fits : q.FitsReport facts bad) :
    (q.doneDrain facts bad).2.Hopeful facts := by
  obtain ⟨gone, taken, shed, -, -, closed⟩ := sound.doneDrain fits
  intro u waiting known
  obtain ⟨unreported, stays, untaken⟩ := closed u waiting
  simp only [shed.knownBad, Finset.mem_union, List.mem_toFinset] at known
  obtain (before | reported) | (none | leaves) | collected := known
  · rw [shed.unknown] at waiting
    exact hopeful u (List.mem_of_mem_filter waiting) before
  · exact unreported reported
  · exact Finset.notMem_empty _ none
  · exact stays leaves
  · exact untaken collected

section Finish

variable {work : α}

theorem Shed.rejected_hopeful {gone : Finset Hash}
    (shed : Shed facts q p {facts.hash work} gone ∅) (sound : q.Sound facts)
    (hopeful : q.Hopeful facts) (tracked : q.Tracked facts work) : p.Hopeful facts := by
  refine shed.hopeful sound hopeful ?_
  intro u waiting
  refine ⟨?_, Finset.notMem_empty _⟩
  rw [Finset.mem_singleton]
  intro same
  have before : u ∈ q.unknown := by
    rw [shed.unknown] at waiting
    exact List.mem_of_mem_filter waiting
  obtain pending | ⟨bad, -⟩ := tracked
  · exact sound.parents u before (same ▸ sound.ready_of_mem (mem_line_of_verifying pending))
  · exact hopeful u before (same ▸ bad)

theorem Sound.finishWork (sound : q.Sound facts) (hopeful : q.Hopeful facts)
    (tracked : q.Tracked facts work) :
    (q.finishWork facts work).Sound facts ∧ (q.finishWork facts work).Hopeful facts ∧
      ∀ w, facts.hash w ≠ facts.hash work → q.Tracked facts w →
        (q.finishWork facts work).Tracked facts w := by
  obtain ⟨valid, gone, shed⟩ | ⟨gone, shed⟩ := sound.finishWork_cases tracked
  · have accepted := sound.accepted tracked valid
    refine ⟨shed.sound accepted, ?_, ?_⟩
    · exact shed.hopeful accepted hopeful fun u _ =>
        ⟨Finset.notMem_empty _, Finset.notMem_empty _⟩
    · exact fun w other held => shed.tracked accepted (held.accepted other)
  · exact ⟨shed.sound sound, shed.rejected_hopeful sound hopeful tracked,
      fun w _ held => shed.tracked sound held⟩

end Finish

end BlockQueue

namespace BlockSystem

variable {α : Type} {facts : BlockFacts α} {s t : BlockSystem α}

/-- The queue is in order, and so are the verifiers. -/
structure Sound (facts : BlockFacts α) (s : BlockSystem α) : Prop where
  queue : s.queue.Sound facts
  hopeful : s.queue.Hopeful facts
  working : ∀ w ∈ s.working, s.queue.Tracked facts w
  distinct : (s.working.map facts.hash).Nodup

/-- Bad blocks are found only when those in the queues stand last, and everything is forgotten only
when no verifier has a block. -/
def Careful (facts : BlockFacts α) (s : BlockSystem α) : Action α → Prop
  | .importBlock b _ _ _ => s.queue.FitsImport facts b
  | .tickImport i _ _ => ∀ b ∈ s.returning[i]?, s.queue.FitsImport facts b
  | .doneDrain bad => s.queue.FitsReport facts bad
  | .clear => s.working.isEmpty = true
  | _ => True

instance (facts : BlockFacts α) (s : BlockSystem α) : (a : Action α) → Decidable (s.Careful facts a)
  | .importBlock b _ _ _ => inferInstanceAs (Decidable (s.queue.FitsImport facts b))
  | .tickImport i _ _ =>
    inferInstanceAs (Decidable (∀ b ∈ s.returning[i]?, s.queue.FitsImport facts b))
  | .doneDrain bad => inferInstanceAs (Decidable (s.queue.FitsReport facts bad))
  | .clear => inferInstanceAs (Decidable (_ = true))
  | .takeWork | .finishWork _ | .drain _ | .tick _ | .tickForget _ | .extend _ =>
    inferInstanceAs (Decidable True)

theorem sound_start (chain : Finset Hash) : (start chain : BlockSystem α).Sound facts := by
  refine ⟨⟨?_, ?_, ?_, ?_, ?_, ?_, ?_, ?_⟩, ?_, ?_, ?_⟩ <;>
    simp [start, BlockQueue.empty, BlockQueue.line, BlockQueue.Hopeful]

theorem Sound.arrive {b : α} {isOurs irreversible : Bool} {now : ℕ} (sound : s.Sound facts)
    (fits : s.queue.FitsImport facts b) :
    (s.arrive facts b isOurs irreversible now).Sound facts := by
  have imported := BlockQueue.importBlock_imported facts s.queue s.chain b isOurs irreversible now
  exact ⟨imported.sound sound.queue fits, imported.hopeful sound.queue sound.hopeful fits,
    fun w member => imported.tracked sound.queue fits (sound.working w member), sound.distinct⟩

theorem step_drain (max : ℕ) : BlockSystem.step facts (.drain max) s =
    some { s with
      queue := (s.queue.drain facts max).2
      handed := s.handed ++ (s.queue.drain facts max).1 } := rfl

theorem eraseIdx_apart {l : List α} {i : ℕ} {w : α} (distinct : (l.map facts.hash).Nodup)
    (found : l[i]? = some w) :
    ((l.eraseIdx i).map facts.hash).Nodup ∧
      ∀ v ∈ l.eraseIdx i, v ∈ l ∧ facts.hash v ≠ facts.hash w := by
  obtain ⟨inside, rfl⟩ := List.getElem?_eq_some_iff.mp found
  have perm := List.getElem_cons_eraseIdx_perm inside
  rw [← (perm.map facts.hash).nodup_iff, List.map_cons, List.nodup_cons] at distinct
  refine ⟨distinct.2, fun v left => ⟨List.eraseIdx_subset left, ?_⟩⟩
  intro same
  exact distinct.1 (same ▸ List.mem_map_of_mem left)

theorem Sound.step {a : Action α} (sound : s.Sound facts) (careful : s.Careful facts a)
    (taken : step facts a s = some t) : t.Sound facts := by
  -- Work in progress stays tracked: its hash is in no other place.
  cases a with
  | importBlock b isOurs irreversible now =>
    obtain rfl := Option.some.inj taken
    exact sound.arrive careful
  | takeWork =>
    obtain ⟨⟨work, queue⟩, given, result⟩ := Option.bind_eq_some_iff.mp taken
    obtain rfl := Option.some.inj result
    have settled := sound.queue.takeWork given
    obtain ⟨rest, split, rfl⟩ := BlockQueue.takeWork_eq_some given
    have fresh : ∀ w ∈ s.working, facts.hash w ≠ facts.hash work := by
      intro w member same
      have apart := (sound.queue.tracked_apart (sound.working w member)).2 work
      exact apart (split ▸ List.mem_cons_self) same.symm
    refine ⟨settled, sound.hopeful, ?_, ?_⟩
    · intro w member
      obtain before | single := List.mem_append.mp member
      · exact (sound.working w before).imp_left (List.mem_append_left _)
      · rw [List.mem_singleton.mp single]
        exact Or.inl (List.mem_append_right _ List.mem_cons_self)
    · change ((s.working ++ [work]).map facts.hash).Nodup
      rw [List.map_append, List.map_singleton, List.nodup_append]
      refine ⟨sound.distinct, List.nodup_singleton _, ?_⟩
      rintro h before k single rfl
      obtain ⟨w, member, same⟩ := List.mem_map.mp before
      exact fresh w member (same.trans (List.mem_singleton.mp single))
  | finishWork i =>
    obtain ⟨work, found, result⟩ := Option.bind_eq_some_iff.mp taken
    obtain rfl := Option.some.inj result
    have tracked := sound.working work (List.mem_of_getElem? found)
    obtain ⟨queue, hopeful, others⟩ := sound.queue.finishWork sound.hopeful tracked
    obtain ⟨distinct, apart⟩ := eraseIdx_apart sound.distinct found
    refine ⟨queue, hopeful, ?_, distinct⟩
    intro w left
    obtain ⟨member, other⟩ := apart w left
    exact others w other (sound.working w member)
  | drain max =>
    rw [step_drain, Option.some.injEq] at taken
    subst taken
    obtain ⟨unknown, -, knownBad⟩ := BlockQueue.drain_unknown facts s.queue max
    refine ⟨(sound.queue.drain max).1, ?_, ?_, sound.distinct⟩
    · change ∀ u ∈ (s.queue.drain facts max).2.unknown, _
      rw [unknown, knownBad]
      exact sound.hopeful
    · exact fun w member => (sound.working w member).drain max
  | doneDrain bad =>
    obtain rfl := Option.some.inj taken
    obtain ⟨gone, taken, shed, -⟩ := sound.queue.doneDrain careful
    refine ⟨shed.sound (sound.queue.setOthers _ _ _ _),
      sound.queue.doneDrain_hopeful sound.hopeful careful, ?_, sound.distinct⟩
    intro w member
    refine shed.tracked (sound.queue.setOthers _ _ _ _) ?_
    exact (sound.working w member).mono Finset.subset_union_left
  | tick now =>
    obtain rfl := Option.some.inj taken
    exact ⟨sound.queue.setOthers _ _ _ _, sound.hopeful, sound.working, sound.distinct⟩
  | tickForget i =>
    obtain ⟨b, found, result⟩ := Option.bind_eq_some_iff.mp taken
    obtain rfl := Option.some.inj result
    exact ⟨sound.queue.setOthers _ _ _ _, sound.hopeful, sound.working, sound.distinct⟩
  | tickImport i irreversible now =>
    obtain ⟨b, found, result⟩ := Option.bind_eq_some_iff.mp taken
    obtain rfl := Option.some.inj result
    refine Sound.arrive (s := { s with returning := s.returning.eraseIdx i }) ?_ (careful b found)
    exact ⟨sound.queue, sound.hopeful, sound.working, sound.distinct⟩
  | clear =>
    obtain rfl := Option.some.inj taken
    have idle : s.working = [] := List.isEmpty_iff.mp careful
    refine ⟨(sound_start ∅).queue.setOthers _ _ _ _, ?_, ?_, sound.distinct⟩
    · intro u waiting
      cases waiting
    · intro w member
      rw [idle] at member
      cases member
  | extend i =>
    obtain ⟨b, found, result⟩ := Option.bind_eq_some_iff.mp taken
    obtain rfl := Option.some.inj result
    exact ⟨sound.queue, sound.hopeful, sound.working, sound.distinct⟩

theorem Sound.run {chain : Finset Hash} {actions : List (Action α)}
    (careful : Runs.Along (BlockSystem.step facts) (Careful facts) actions (start chain))
    (ran : Runs.run (BlockSystem.step facts) actions (start chain) = some t) : t.Sound facts :=
  Runs.keeps (fun _ _ _ sound fits taken => Sound.step sound fits taken) (sound_start chain)
    careful ran

/-- In every careful run the ready blocks are those in the three queues, each of them once. -/
theorem readySet_eq_known {chain : Finset Hash} {actions : List (Action α)}
    (careful : Runs.Along (BlockSystem.step facts) (Careful facts) actions (start chain))
    (ran : Runs.run (BlockSystem.step facts) actions (start chain) = some t) :
    (∀ h, h ∈ t.queue.readySet ↔ (∃ b ∈ t.queue.verified, facts.hash b = h) ∨
      (∃ place ∈ t.queue.verifying, place.hash facts = h) ∨
        ∃ b ∈ t.queue.unverified, facts.hash b = h) ∧
    t.queue.readySet.card = t.queue.knownCount := by
  have sound := (Sound.run careful ran).queue
  constructor
  · intro h
    rw [sound.ready]
    simp [BlockQueue.line]
  · have same : t.queue.readySet = ((t.queue.line facts).map Prod.fst).toFinset := by
      ext h
      rw [sound.ready, List.mem_toFinset]
    rw [same, List.toFinset_card_of_nodup sound.distinct, List.length_map, BlockQueue.line]
    simp only [List.length_append, List.length_map, BlockQueue.knownCount]
    omega

-- The numerals for the blocks of the sample.
instance neZero_six : NeZero 6 := ⟨by decide⟩

/-- Six blocks over a block of the chain: a child and its child and grandchild, another child, one
of a later time, and one that is not valid. -/
def sampleFacts : BlockFacts (Fin 6) where
  hash := ![10, 11, 12, 13, 14, 15]
  parentHash := ![1, 10, 1, 11, 1, 1]
  sha3Uncles _ := 0
  timestamp := ![5, 6, 5, 7, 100, 5]
  futureKey := ![5, 6, 5, 7, 100, 5]
  wellFormed _ := true
  valid b := b ≠ 5
  hash_injective := by decide +kernel
  uncles_apart := by decide +kernel

/-- The system after some of the sample blocks were imported and verified. -/
def sampleImports (blocks : List (Fin 6)) : List (Action (Fin 6)) :=
  blocks.map (.importBlock · false false 10) ++ List.replicate blocks.length .takeWork ++
    List.replicate blocks.length (.finishWork 0)

/-- A run of actions on the sample blocks. -/
def sampleRun (actions : List (Action (Fin 6))) : Option (BlockSystem (Fin 6)) :=
  Runs.run (step sampleFacts) actions (start {1})

/-- A child of a bad block that stands last is taken out. -/
theorem readySet_eq_known_swept : ∃ t,
    sampleRun (sampleImports [0, 2, 1] ++ [.drain 1, .doneDrain [10]]) = some t ∧
      t.queue.readySet.card = t.queue.knownCount := by
  obtain ⟨t, ran⟩ := Option.isSome_iff_exists.mp
    (show (sampleRun (sampleImports [0, 2, 1] ++ [.drain 1, .doneDrain [10]])).isSome = true by
      decide +kernel)
  exact ⟨t, ran, (readySet_eq_known (by decide +kernel) ran).2⟩

/-- A child of a bad block that does not stand last stays ready when it is taken out, and a block
that comes again while a verifier has it is not ready when the verifier finds it bad. -/
theorem readySet_ne_known :
    (sampleRun (sampleImports [0, 1, 2] ++ [.drain 1, .doneDrain [10]])).map
        (fun s => (s.queue.readySet, s.queue.knownCount)) = some ({11}, 0) ∧
      (sampleRun [.importBlock 5 false false 10, .takeWork, .clear,
          .importBlock 5 false false 10, .finishWork 0]).map
        (fun s => (s.queue.readySet, s.queue.knownCount)) = some (∅, 1) := by
  decide +kernel

end BlockSystem

end Etiam
