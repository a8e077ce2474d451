import Etiam.Queue.BlockSweep

/-! What the operations of the block queue do to the blocks that are ready and that wait. -/

namespace Etiam

namespace BlockQueue

variable {α : Type} {facts : BlockFacts α} {q p : BlockQueue α}

/-- Soundness does not depend on the other sets. -/
theorem Sound.setOthers (sound : q.Sound facts) (drainingSet knownBad futureSet : Finset Hash)
    (future : List α) :
    ({ q with
      drainingSet := drainingSet
      knownBad := knownBad
      futureSet := futureSet
      future := future } : BlockQueue α).Sound facts :=
  ⟨sound.distinct, sound.ready, sound.real, sound.unknown_distinct, sound.unknownSet, sound.apart,
    sound.parents, sound.done⟩

/-- Nor on where in line the blocks stand. -/
theorem Sound.reline (sound : q.Sound facts) {unverified : List α}
    {verifying : List (VerifyingSlot α)}
    (line : ({ q with unverified, verifying } : BlockQueue α).line facts = q.line facts)
    (done : ∀ b, .done b ∈ verifying → facts.valid b = true) :
    ({ q with unverified, verifying } : BlockQueue α).Sound facts :=
  ⟨line ▸ sound.distinct, line ▸ sound.ready, line ▸ sound.real, sound.unknown_distinct,
    sound.unknownSet, sound.apart, sound.parents, done⟩

section Import

/-- What the arrival of a block can do to the queue. -/
inductive Imported (facts : BlockFacts α) (chain : Finset Hash) (q : BlockQueue α) (b : α) :
    BlockQueue α → Prop where
  | refused : Imported facts chain q b q
  | future (fresh : q.isKnown (facts.hash b) = false) : Imported facts chain q b
      { q with future := q.future ++ [b], futureSet := insert (facts.hash b) q.futureSet }
  | bad (fresh : q.isKnown (facts.hash b) = false) (parent : facts.parentHash b ∈ q.knownBad) :
      Imported facts chain q b (updateBad facts
        { q with knownBad := insert (facts.hash b) q.knownBad } (facts.hash b))
  | unknown (fresh : q.isKnown (facts.hash b) = false) (unchained : facts.hash b ∉ chain)
      (parent : facts.parentHash b ∉ q.knownBad)
      (detached : q.attached chain (facts.parentHash b) = false) : Imported facts chain q b
      { q with unknown := q.unknown ++ [b], unknownSet := insert (facts.hash b) q.unknownSet }
  | ready (fresh : q.isKnown (facts.hash b) = false) (unchained : facts.hash b ∉ chain)
      (parent : facts.parentHash b ∉ q.knownBad)
      (attached : q.attached chain (facts.parentHash b) = true) :
      Imported facts chain q b (noteReady facts
        { q with
          unverified := q.unverified ++ [b]
          readySet := insert (facts.hash b) q.readySet } (facts.hash b))

variable (facts q) in
/-- The arrival of a block does one of these. -/
theorem importBlock_imported (chain : Finset Hash) (b : α) (isOurs irreversible : Bool) (now : ℕ) :
    Imported facts chain q b (q.importBlock facts chain b isOurs irreversible now).2 := by
  simp only [importBlock]
  split
  · exact .refused
  rename_i fresh
  rw [Bool.not_eq_true] at fresh
  split
  · exact .refused
  split
  · exact .refused
  rename_i unchained
  split
  · exact .refused
  split
  · exact .future fresh
  split
  · rename_i parent
    exact .bad fresh parent
  rename_i parent
  split
  · rename_i detached
    exact .unknown fresh unchained parent (by simpa using detached)
  · rename_i attached
    exact .ready fresh unchained parent (by simpa using attached)

variable {h : Hash}

/-- A hash is new if no set has it. -/
theorem isKnown_eq_false : q.isKnown h = false ↔
    h ∉ q.readySet ∧ h ∉ q.drainingSet ∧ h ∉ q.unknownSet ∧ h ∉ q.knownBad := by
  simp [isKnown]

/-- A hash is detached if it is neither ready, handed out nor on the chain. -/
theorem attached_eq_false {chain : Finset Hash} : q.attached chain h = false ↔
    h ∉ q.readySet ∧ h ∉ q.drainingSet ∧ h ∉ chain := by
  simp [attached]

/-- A hash is attached if it is ready, handed out or on the chain. -/
theorem attached_iff {chain : Finset Hash} : q.attached chain h = true ↔
    h ∈ q.readySet ∨ h ∈ q.drainingSet ∨ h ∈ chain := by
  simp [attached]

variable {b : α}

/-- A block whose parent is not ready may wait. -/
theorem Sound.postpone (sound : q.Sound facts) (fresh : facts.hash b ∉ q.readySet)
    (new : facts.hash b ∉ q.unknownSet) (parent : facts.parentHash b ∉ q.readySet) :
    ({ q with
      unknown := q.unknown ++ [b]
      unknownSet := insert (facts.hash b) q.unknownSet } : BlockQueue α).Sound facts where
  distinct := sound.distinct
  ready := sound.ready
  real := sound.real
  unknown_distinct := by
    rw [List.map_append, List.map_singleton, List.nodup_append]
    refine ⟨sound.unknown_distinct, List.nodup_singleton _, ?_⟩
    intro h waiting k single same
    rw [List.mem_singleton] at single
    obtain ⟨u, member, rfl⟩ := List.mem_map.mp waiting
    exact new (same.trans single ▸ sound.waiting member)
  unknownSet := by
    rw [sound.unknownSet]
    ext h
    simp [or_comm, eq_comm, or_and_right, exists_or]
  apart := by
    intro u member
    obtain before | single := List.mem_append.mp member
    · exact sound.apart u before
    · rwa [List.mem_singleton.mp single]
  parents := by
    intro u member
    obtain before | single := List.mem_append.mp member
    · exact sound.parents u before
    · rwa [List.mem_singleton.mp single]
  done := sound.done

variable (facts) (q) (b) in
/-- The queue once a block is ready, with what waited for it. -/
def admitted : BlockQueue α :=
  noteReady facts
    { q with unverified := q.unverified ++ [b], readySet := insert (facts.hash b) q.readySet }
    (facts.hash b)

variable (facts) (q) (b) in
/-- The blocks that are ready when a block is, the block itself first. -/
def arrivals : List α := b :: (q.descendants facts (facts.hash b)).1

/-- What arrives is appended to the blocks to verify. -/
theorem unverified_admitted :
    (q.admitted facts b).unverified = q.unverified ++ q.arrivals facts b := by
  simp [admitted, noteReady, arrivals, descendants]

/-- What arrives stands at the end of the line. -/
theorem line_admitted : (q.admitted facts b).line facts =
    q.line facts ++ (q.arrivals facts b).map facts.entry := by
  simp [line, admitted, noteReady, arrivals, descendants]

/-- What arrives is ready. -/
theorem readySet_admitted :
    (q.admitted facts b).readySet = q.readySet ∪ facts.hashes (q.arrivals facts b) := by
  ext h
  simp [admitted, noteReady, arrivals, descendants]
  tauto

/-- What arrives does not wait any more. -/
theorem unknown_admitted (sound : q.Sound facts) : (q.admitted facts b).unknown =
    q.unknown.filter fun u => facts.hash u ∉ facts.hashes (q.descendants facts (facts.hash b)).1 :=
  (sound.collectUnknownBad (facts.hash b)).unknown

/-- The descendants of a hash wait. -/
theorem descendants_subset : (q.descendants facts h).1 ⊆ q.unknown := by
  intro u taken
  exact Descent.descend_perm.subset (List.mem_append_left _ taken)

variable (sound : q.Sound facts)

include sound

/-- Their hashes are noted as waiting. -/
theorem descendants_waiting {u : α} (taken : u ∈ (q.descendants facts h).1) :
    facts.hash u ∈ q.unknownSet :=
  sound.waiting (descendants_subset taken)

/-- What arrives has different hashes. -/
theorem arrivals_distinct (new : facts.hash b ∉ q.unknownSet) :
    ((q.arrivals facts b).map facts.hash).Nodup := by
  rw [arrivals, List.map_cons, List.nodup_cons]
  constructor
  · intro taken
    obtain ⟨u, member, same⟩ := List.mem_map.mp taken
    exact new (same ▸ descendants_waiting sound member)
  · have perm : ((q.descendants facts (facts.hash b)).1 ++
        (q.descendants facts (facts.hash b)).2).Perm q.unknown := Descent.descend_perm
    have all := (perm.map facts.hash).nodup_iff.mpr sound.unknown_distinct
    rw [List.map_append] at all
    exact all.of_append_left

/-- What arrives was not ready before. -/
theorem arrivals_fresh (fresh : facts.hash b ∉ q.readySet) :
    ∀ u ∈ q.arrivals facts b, facts.hash u ∉ q.readySet := by
  intro u member
  obtain rfl | taken := List.mem_cons.mp member
  · exact fresh
  · exact fun ready => sound.ready_apart ready (descendants_waiting sound taken)

/-- A new block may become ready with what waited for it. -/
theorem Sound.admitted (fresh : facts.hash b ∉ q.readySet) (new : facts.hash b ∉ q.unknownSet) :
    (q.admitted facts b).Sound facts where
  distinct := by
    rw [line_admitted, List.map_append, List.nodup_append]
    refine ⟨sound.distinct, ?_, ?_⟩
    · simpa [List.map_map, Function.comp_def] using arrivals_distinct sound new
    · rintro h before k arrives rfl
      obtain ⟨e, listed, rfl⟩ := List.mem_map.mp arrives
      obtain ⟨u, member, rfl⟩ := List.mem_map.mp listed
      exact arrivals_fresh sound fresh u member ((sound.ready _).mpr before)
  ready := by
    intro h
    rw [readySet_admitted, line_admitted, List.map_append, List.mem_append, Finset.mem_union,
      sound.ready]
    simp
  real := by
    intro e member
    rw [line_admitted] at member
    obtain before | arrives := List.mem_append.mp member
    · exact sound.real e before
    · obtain ⟨u, -, rfl⟩ := List.mem_map.mp arrives
      exact ⟨u, rfl⟩
  unknown_distinct := ((sound.collectUnknownBad (facts.hash b)).sound sound).unknown_distinct
  unknownSet := ((sound.collectUnknownBad (facts.hash b)).sound sound).unknownSet
  apart := by
    intro u member
    rw [unknown_admitted sound, List.mem_filter, decide_eq_true_eq] at member
    rw [readySet_admitted, Finset.mem_union, not_or]
    refine ⟨sound.apart u member.1, ?_⟩
    intro arrives
    obtain ⟨v, present, same⟩ := BlockFacts.mem_hashes.mp arrives
    obtain rfl | taken := List.mem_cons.mp present
    · exact new (same ▸ sound.waiting member.1)
    · exact member.2 (BlockFacts.mem_hashes.mpr ⟨v, taken, same⟩)
  parents := by
    intro u member
    have left : u ∈ (q.collectUnknownBad facts (facts.hash b)).unknown := member
    obtain ⟨other, untaken⟩ := collectUnknownBad_closed u left
    rw [unknown_admitted sound, List.mem_filter] at member
    rw [readySet_admitted, Finset.mem_union, not_or]
    refine ⟨sound.parents u member.1, ?_⟩
    intro arrives
    obtain ⟨v, present, same⟩ := BlockFacts.mem_hashes.mp arrives
    obtain rfl | taken := List.mem_cons.mp present
    · exact other same.symm
    · exact untaken (BlockFacts.mem_hashes.mpr ⟨v, taken, same⟩)
  done := sound.done

end Import

section Verifier

variable {work : α} {slots : List (VerifyingSlot α)} {s : VerifyingSlot α}

/-- A verifier takes the first block and leaves a place for it. -/
theorem takeWork_eq_some (taken : q.takeWork facts = some (work, p)) :
    ∃ rest, q.unverified = work :: rest ∧ p = { q with
      unverified := rest
      verifying := q.verifying ++ [.pending (facts.hash work) (facts.parentHash work)] } := by
  unfold takeWork at taken
  split at taken
  · cases taken
  · rename_i first rest split
    simp only [Option.some.injEq, Prod.mk.injEq] at taken
    obtain ⟨rfl, rfl⟩ := taken
    exact ⟨rest, split, rfl⟩

/-- Taking work leaves the line. -/
theorem line_takeWork (taken : q.takeWork facts = some (work, p)) :
    p.line facts = q.line facts := by
  obtain ⟨rest, split, rfl⟩ := takeWork_eq_some taken
  simp [line, split, VerifyingSlot.entry, VerifyingSlot.hash, VerifyingSlot.parentHash,
    BlockFacts.entry, Descent.entry]

/-- Taking work keeps the queue sound. -/
theorem Sound.takeWork (sound : q.Sound facts)
    (taken : q.takeWork facts = some (work, p)) : p.Sound facts := by
  have line := line_takeWork taken
  obtain ⟨rest, split, rfl⟩ := takeWork_eq_some taken
  refine sound.reline line fun b member => ?_
  obtain before | single := List.mem_append.mp member
  · exact sound.done b before
  · cases List.mem_singleton.mp single

/-- Settling a block leaves the places. -/
theorem verifying_settle (b : α) : (q.settle facts b).verifying = q.verifying := by
  unfold settle
  split <;> rfl

/-- Settling the first block sheds it if its parent is bad. -/
theorem Sound.settle (sound : q.Sound facts) {b : α} {rest : List (VerifyingSlot α)}
    (front : q.verifying = .done b :: rest) :
    ∃ gone, Shed facts q (settle facts { q with verifying := rest } b) ∅ gone ∅ := by
  have pending : ∀ h parent, VerifyingSlot.pending h parent ∈ q.verifying →
      VerifyingSlot.pending h parent ∈ rest := by
    intro h parent member
    rw [front, List.mem_cons] at member
    obtain same | later := member
    · cases same
    · exact later
  have done : ∀ c, VerifyingSlot.done c ∈ rest → VerifyingSlot.done c ∈ q.verifying := by
    intro c member
    rw [front]
    exact List.mem_cons_of_mem _ member
  -- A block on a bad parent leaves, any other moves on to the verified ones.
  by_cases bad : facts.parentHash b ∈ q.knownBad
  · refine ⟨{facts.hash b}, ?_⟩
    rw [BlockQueue.settle, if_pos bad]
    refine sound.shedOut [facts.entry b] (by simp) ?_ ?_
      (fun h parent member _ => pending h parent member) done ?_
    · simp only [line, front, List.map_cons, List.append_assoc, List.cons_append, List.nil_append]
      exact List.perm_middle.symm
    · simp only [line, front, List.map_cons, List.append_assoc, List.cons_append]
      exact (List.sublist_cons_self _ _).append_left _
    · simp only [Finset.union_singleton, Finset.sdiff_singleton_eq_erase]
  · refine ⟨∅, ?_⟩
    rw [BlockQueue.settle, if_neg bad]
    have same : ({ q with verified := q.verified ++ [b], verifying := rest } : BlockQueue α).line
        facts = q.line facts := by
      simp only [line, front, List.map_cons, List.map_append, List.append_assoc, List.cons_append,
        List.map_nil, List.nil_append]
      rfl
    refine sound.shedOut [] (by simp) ?_ ?_ (fun h parent member _ => pending h parent member)
      done ?_
    · rw [same]
      exact List.Perm.refl _
    · rw [same]
    · simp only [Finset.union_empty, Finset.sdiff_empty]

/-- Settling the blocks in front sheds the bad ones. -/
theorem Sound.drainSlots (sound : q.Sound facts) (whole : q.verifying = slots) :
    ∃ gone, Shed facts q (drainSlots facts slots q) ∅ gone ∅ := by
  -- The induction is on the places, and stops at the first that is pending.
  induction slots generalizing q with
  | nil => exact ⟨∅, Shed.refl q⟩
  | cons s rest ih =>
    cases s with
    | pending h parent => exact ⟨∅, Shed.refl q⟩
    | done b =>
      obtain ⟨gone, shed⟩ := sound.settle whole
      obtain ⟨gone', shed'⟩ := ih (shed.sound sound) (verifying_settle b)
      exact ⟨gone ∪ gone', by simpa [BlockQueue.drainSlots] using shed.trans shed'⟩

/-- Moving verified blocks on sheds the bad ones. -/
theorem Sound.drainVerified (sound : q.Sound facts) :
    ∃ gone, Shed facts q (q.drainVerified facts) ∅ gone ∅ :=
  sound.drainSlots rfl

/-- A verifier's block is in its place, or has been taken out as bad. -/
def Tracked (facts : BlockFacts α) (q : BlockQueue α) (w : α) : Prop :=
  .pending (facts.hash w) (facts.parentHash w) ∈ q.verifying ∨
    (facts.hash w ∈ q.knownBad ∧ facts.hash w ∉ q.readySet ∧ facts.hash w ∉ q.unknownSet)

/-- A verifier keeps track of its block when bad ones are shed. -/
theorem Shed.tracked {reported gone taken : Finset Hash} {w : α}
    (shed : Shed facts q p reported gone taken) (sound : q.Sound facts)
    (tracked : q.Tracked facts w) : p.Tracked facts w := by
  by_cases leaves : facts.hash w ∈ gone
  · right
    refine ⟨?_, ?_, ?_⟩
    · rw [shed.knownBad]
      simp [leaves]
    · rw [shed.readySet]
      simp [leaves]
    · rw [shed.unknownSet]
      intro waiting
      have before := (Finset.mem_sdiff.mp waiting).1
      obtain pending | ⟨-, -, known⟩ := tracked
      · exact sound.ready_apart (sound.ready_of_mem (mem_line_of_verifying pending)) before
      · exact known before
  · obtain pending | ⟨bad, unready, known⟩ := tracked
    · exact Or.inl (shed.pending _ _ pending leaves)
    · right
      rw [shed.knownBad, shed.readySet, shed.unknownSet]
      refine ⟨Finset.mem_union_left _ bad, ?_, ?_⟩
      · exact fun ready => unready (Finset.mem_sdiff.mp ready).1
      · exact fun waiting => known (Finset.mem_sdiff.mp waiting).1

variable (facts) (q) (work) in
/-- The queue without a verifier's block, which is noted as bad. -/
def rejected : BlockQueue α :=
  { q with
    readySet := q.readySet.erase (facts.hash work)
    knownBad := insert (facts.hash work) q.knownBad
    verifying := q.verifying.filter fun s => s.sha3Uncles facts ≠ facts.hash work }

/-- A block in its place leaves the line. -/
theorem map_entry_replace (named : ∀ s ∈ slots, s.sha3Uncles facts = facts.hash work →
      s = .pending (facts.hash work) (facts.parentHash work)) :
    (replace facts (facts.hash work) work slots).map (VerifyingSlot.entry facts) =
      slots.map (VerifyingSlot.entry facts) := by
  induction slots with
  | nil => rfl
  | cons s rest ih =>
    rw [replace]
    split
    · rename_i found
      rw [named s List.mem_cons_self found]
      rfl
    · rw [List.map_cons, ih fun t later => named t (List.mem_cons_of_mem s later), List.map_cons]

/-- The places are those of before and the one of the block. -/
theorem mem_replace
    (member : s ∈ replace facts (facts.hash work) work slots) : s = .done work ∨ s ∈ slots := by
  induction slots with
  | nil => cases member
  | cons t rest ih =>
    rw [replace] at member
    split at member
    · exact (List.mem_cons.mp member).imp_right (List.mem_cons_of_mem t)
    · obtain rfl | later := List.mem_cons.mp member
      · exact Or.inr List.mem_cons_self
      · exact (ih later).imp_right (List.mem_cons_of_mem t)

/-- The places of other blocks stay. -/
theorem mem_replace_of_ne (member : s ∈ slots) (other : s.sha3Uncles facts ≠ facts.hash work) :
    s ∈ replace facts (facts.hash work) work slots := by
  induction slots with
  | nil => cases member
  | cons t rest ih =>
    rw [replace]
    obtain rfl | later := List.mem_cons.mp member
    · rw [if_neg other]
      exact List.mem_cons_self
    · split
      · exact List.mem_cons_of_mem _ later
      · exact List.mem_cons_of_mem _ (ih later)

variable (facts) (q) (work) in
/-- The queue with a verifier's block in the place that was kept for it. -/
def accepted : BlockQueue α :=
  { q with verifying := replace facts (facts.hash work) work q.verifying }

variable (facts q work) in
/-- Accepting a block may move verified ones on. -/
theorem acceptWork_cases : q.acceptWork facts work = q.accepted facts work ∨
    q.acceptWork facts work = (q.accepted facts work).drainVerified facts := by
  unfold acceptWork accepted
  split
  · rename_i none
    left
    rw [none]
    cases q
    simpa [replace] using none
  · rename_i s rest split'
    split
    · rename_i found
      right
      rw [split', replace, if_pos found]
      simp only [drainVerified, drainSlots, verifying_settle]
    · left
      rw [split']

/-- Other verifiers keep track of their blocks. -/
theorem Tracked.accepted {w : α} (tracked : q.Tracked facts w)
    (other : facts.hash w ≠ facts.hash work) : (q.accepted facts work).Tracked facts w :=
  tracked.imp_left fun pending => mem_replace_of_ne pending other

section

variable (sound : q.Sound facts) (tracked : q.Tracked facts work)

include sound tracked

/-- Only the place of the block is named by its hash. -/
theorem Sound.sha3Uncles_eq_iff (member : s ∈ q.verifying) :
    s.sha3Uncles facts = facts.hash work ↔
      s = .pending (facts.hash work) (facts.parentHash work) := by
  constructor
  · intro same
    cases s with
    | done b => exact absurd same (facts.uncles_apart b work (sound.done b member))
    | pending h parent =>
      have listed : (VerifyingSlot.pending h parent).entry facts ∈ q.line facts :=
        mem_line_of_verifying member
      obtain pending | ⟨-, unready, -⟩ := tracked
      · -- Two places with one hash are one.
        have equal := List.inj_on_of_nodup_map sound.distinct listed
          (mem_line_of_verifying pending) same
        have parents : parent = facts.parentHash work := congrArg Prod.snd equal
        change h = _ at same
        rw [same, parents]
      · change h = _ at same
        exact absurd (same ▸ sound.ready_of_mem listed) unready
  · rintro rfl
    rfl

/-- The block stands nowhere else in line. -/
theorem Sound.tracked_apart :
    (∀ b ∈ q.verified, facts.hash b ≠ facts.hash work) ∧
      ∀ b ∈ q.unverified, facts.hash b ≠ facts.hash work := by
  obtain pending | ⟨-, unready, -⟩ := tracked
  · have distinct := sound.distinct
    simp only [line, List.map_append, List.nodup_append] at distinct
    obtain ⟨⟨-, -, before⟩, -, after⟩ := distinct
    have place := List.mem_map_of_mem (f := Prod.fst)
      (List.mem_map_of_mem (f := VerifyingSlot.entry facts) pending)
    constructor
    · intro b member
      exact before _ (List.mem_map_of_mem (List.mem_map_of_mem member)) _ place
    · intro b member same
      exact after _ (List.mem_append_right _ place) _
        (List.mem_map_of_mem (List.mem_map_of_mem member)) same.symm
  · constructor
    · intro b member same
      exact unready (same ▸ sound.ready_of_mem (mem_line_of_verified member))
    · intro b member same
      exact unready (same ▸ sound.ready_of_mem (mem_line_of_unverified member))

/-- The place is found by the hash as by the name. -/
theorem Sound.hash_eq_iff (member : s ∈ q.verifying) :
    s.hash facts = facts.hash work ↔ s.sha3Uncles facts = facts.hash work := by
  rw [sound.sha3Uncles_eq_iff tracked member]
  constructor
  · intro same
    obtain pending | ⟨-, unready, -⟩ := tracked
    · have distinct := sound.distinct
      simp only [line, List.map_append, List.map_map, List.nodup_append] at distinct
      exact List.inj_on_of_nodup_map distinct.1.2.1 member pending same
    · exact absurd (same ▸ sound.ready_of_mem (mem_line_of_verifying member)) unready
  · rintro rfl
    rfl

/-- A rejected block is shed. -/
theorem Sound.rejected :
    Shed facts q (q.rejected facts work) {facts.hash work} {facts.hash work} ∅ where
  line := by
    obtain ⟨verified, unverified⟩ := sound.tracked_apart tracked
    have first : ((q.verified.map facts.entry).filter fun e =>
        e.1 ∉ ({facts.hash work} : Finset Hash)) =
        q.verified.map facts.entry := by
      simpa [List.filter_eq_self] using verified
    have last : ((q.unverified.map facts.entry).filter fun e =>
        e.1 ∉ ({facts.hash work} : Finset Hash)) =
        q.unverified.map facts.entry := by
      simpa [List.filter_eq_self] using unverified
    have middle : ((q.verifying.map (VerifyingSlot.entry facts)).filter fun e =>
        e.1 ∉ ({facts.hash work} : Finset Hash)) = (q.verifying.filter fun s =>
          s.sha3Uncles facts ≠ facts.hash work).map (VerifyingSlot.entry facts) := by
      rw [List.filter_map]
      refine congrArg _ (List.filter_congr fun s member => ?_)
      have iff := sound.hash_eq_iff tracked member
      simp [iff]
    simp only [line, List.filter_append]
    rw [first, middle, last]
    rfl
  pending := by
    intro h parent member stays
    refine List.mem_filter.mpr ⟨member, ?_⟩
    exact decide_eq_true fun same => stays (Finset.mem_singleton.mpr same)
  done := fun _ => List.mem_of_mem_filter
  readySet := by simp [BlockQueue.rejected, Finset.sdiff_singleton_eq_erase]
  unknown := by simp [BlockQueue.rejected]
  unknownSet := by simp [BlockQueue.rejected]
  knownBad := by simp [BlockQueue.rejected]
  gone_ready := fun _ => Or.inr
  taken_unknown := Finset.empty_subset _
  drainingSet := rfl
  futureSet := rfl
  future := rfl

/-- Rejecting a block sheds it and bad ones after it. -/
theorem Sound.rejectWork :
    ∃ gone, Shed facts q (q.rejectWork facts work) {facts.hash work} gone ∅ := by
  have rejected := sound.rejected tracked
  obtain ⟨gone, drained⟩ := (rejected.sound sound).drainVerified
  have result : q.rejectWork facts work = (q.rejected facts work).drainVerified facts := rfl
  rw [result]
  exact ⟨{facts.hash work} ∪ gone, by simpa using rejected.trans drained⟩

/-- Accepting a block leaves the line. -/
theorem line_accepted : (q.accepted facts work).line facts = q.line facts := by
  simp only [line, accepted]
  rw [map_entry_replace fun s member => (sound.sha3Uncles_eq_iff tracked member).mp]

/-- Accepting a valid block keeps the queue sound. -/
theorem Sound.accepted (valid : facts.valid work = true) :
    (q.accepted facts work).Sound facts := by
  refine sound.reline (line_accepted sound tracked) fun b member => ?_
  obtain same | before := mem_replace member
  · cases same
    exact valid
  · exact sound.done b before

/-- A valid block is put in its place before bad ones may leave, any other leaves with them. -/
theorem Sound.finishWork_cases :
    facts.valid work = true ∧
        (∃ gone, Shed facts (q.accepted facts work) (q.finishWork facts work) ∅ gone ∅) ∨
      ∃ gone, Shed facts q (q.finishWork facts work) {facts.hash work} gone ∅ := by
  unfold BlockQueue.finishWork
  split
  · rename_i valid
    refine Or.inl ⟨valid, ?_⟩
    obtain result | result := acceptWork_cases facts q work
    · exact ⟨∅, result ▸ Shed.refl _⟩
    · rw [result]
      exact (sound.accepted tracked valid).drainVerified
  · exact Or.inr (sound.rejectWork tracked)

end

end Verifier

section Drain

/-- Handing out blocks takes them from the front of the line. -/
theorem Sound.drain (sound : q.Sound facts) (max : ℕ) :
    (q.drain facts max).2.Sound facts ∧
      q.line facts = (q.drain facts max).1.map facts.entry ++ (q.drain facts max).2.line facts ∧
      (q.drain facts max).2.readySet = q.readySet \ facts.hashes (q.drain facts max).1 := by
  unfold BlockQueue.drain
  split
  · have line : q.line facts = (q.verified.take max).map facts.entry ++
        ({ q with
          verified := q.verified.drop max
          drainingSet := facts.hashes (q.verified.take max)
          readySet := q.readySet \ facts.hashes (q.verified.take max) } :
            BlockQueue α).line facts := by
      simp only [BlockQueue.line]
      rw [← List.append_assoc, ← List.append_assoc, ← List.map_append, List.take_append_drop]
    have distinct := sound.distinct
    rw [line, List.map_append, List.nodup_append] at distinct
    refine ⟨⟨distinct.2.1, ?_, ?_, sound.unknown_distinct, sound.unknownSet, ?_, ?_, sound.done⟩,
      line, rfl⟩
    · intro h
      rw [Finset.mem_sdiff, sound.ready, line, List.map_append, List.mem_append]
      constructor
      · rintro ⟨front | later, stays⟩
        · obtain ⟨e, listed, rfl⟩ := List.mem_map.mp front
          obtain ⟨b, member, rfl⟩ := List.mem_map.mp listed
          exact absurd (BlockFacts.mem_hashes.mpr ⟨b, member, rfl⟩) stays
        · exact later
      · intro later
        refine ⟨Or.inr later, ?_⟩
        intro handed
        obtain ⟨b, member, rfl⟩ := BlockFacts.mem_hashes.mp handed
        exact distinct.2.2 _ (List.mem_map_of_mem (List.mem_map_of_mem member)) _ later rfl
    · intro e member
      exact sound.real e (line ▸ List.mem_append_right _ member)
    · exact fun u member ready => sound.apart u member (Finset.mem_sdiff.mp ready).1
    · exact fun u member ready => sound.parents u member (Finset.mem_sdiff.mp ready).1
  · exact ⟨sound, by simp, by simp⟩

/-- A verifier keeps track of its block when others are handed out. -/
theorem Tracked.drain {w : α} (tracked : q.Tracked facts w) (max : ℕ) :
    (q.drain facts max).2.Tracked facts w := by
  unfold BlockQueue.drain
  split
  · refine tracked.imp_right fun out => ⟨out.1, ?_, out.2.2⟩
    exact fun ready => out.2.1 (Finset.mem_sdiff.mp ready).1
  · exact tracked

variable (facts q) in
/-- Handing out blocks leaves what waits and what is bad. -/
theorem drain_unknown (max : ℕ) : (q.drain facts max).2.unknown = q.unknown ∧
    (q.drain facts max).2.unknownSet = q.unknownSet ∧
    (q.drain facts max).2.knownBad = q.knownBad := by
  unfold BlockQueue.drain
  split <;> exact ⟨rfl, rfl, rfl⟩

end Drain

end BlockQueue

end Etiam
