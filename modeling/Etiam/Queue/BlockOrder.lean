import Etiam.Queue.BlockReady

/-! Blocks leave the queue in the order in which they became ready, and after their parents. -/

namespace Etiam

namespace BlockQueue

variable {α : Type} {facts : BlockFacts α} {chain : Finset Hash} {handed : List α}
  {q p : BlockQueue α}

/-- A block that was handed out is valid, and its parent was there before it. -/
structure Delivered (facts : BlockFacts α) (chain : Finset Hash) (handed : List α) : Prop where
  valid : ∀ b ∈ handed, facts.valid b = true
  parents : ∀ b ∈ handed, facts.parentHash b ∈ chain ∨ facts.parentHash b ∈ facts.hashes handed

/-- A block is in the chain or has been handed out on the way there, or is known to be bad. -/
def Grounded (facts : BlockFacts α) (chain : Finset Hash) (handed : List α) (q : BlockQueue α)
    (h : Hash) : Prop :=
  h ∈ chain ∨ h ∈ facts.hashes handed ∨ h ∈ q.knownBad

/-- The blocks in line come after their parents, and no bad block is before one that is verified or
that has been handed out before. -/
structure Attached (facts : BlockFacts α) (chain : Finset Hash) (handed : List α)
    (q : BlockQueue α) : Prop where
  anchored : Descent.Anchored (q.Grounded facts chain handed) (q.line facts)
  verified_good : ∀ b ∈ q.verified, facts.parentHash b ∉ q.knownBad
  handed_good : ∀ e ∈ q.line facts, e.1 ∈ facts.hashes handed → e.2 ∉ q.knownBad
  valid : ∀ b ∈ q.verified, facts.valid b = true
  unchained : ∀ h, h ∈ q.readySet ∨ h ∈ q.unknownSet → h ∈ chain → h ∈ facts.hashes handed

theorem mem_of_hash {b : α} {blocks : List α} (named : facts.hash b ∈ facts.hashes blocks) :
    b ∈ blocks := by
  obtain ⟨c, member, same⟩ := BlockFacts.mem_hashes.mp named
  rwa [← facts.hash_injective same]

theorem mem_hashes_append {h : Hash} {blocks others : List α} :
    h ∈ facts.hashes (blocks ++ others) ↔ h ∈ facts.hashes blocks ∨ h ∈ facts.hashes others := by
  simp [BlockFacts.hashes]

theorem Attached.verified_parent (attached : Attached facts chain handed q) {b : α}
    (member : b ∈ q.verified) :
    facts.parentHash b ∈ chain ∨ facts.parentHash b ∈ facts.hashes handed ∨
      facts.parentHash b ∈ facts.hashes q.verified := by
  have anchored := attached.anchored
  rw [line, List.append_assoc, Descent.anchored_append] at anchored
  obtain known | earlier := anchored.1.mem (List.mem_map_of_mem member)
  · obtain inChain | given | bad := known
    · exact Or.inl inChain
    · exact Or.inr (Or.inl given)
    · exact absurd bad (attached.verified_good b member)
  · refine Or.inr (Or.inr ?_)
    simpa using earlier

theorem Delivered.line_parent (delivered : Delivered facts chain handed) (sound : q.Sound facts)
    {e : Hash × Hash} (member : e ∈ q.line facts) (given : e.1 ∈ facts.hashes handed) :
    e.2 ∈ chain ∨ e.2 ∈ facts.hashes handed := by
  obtain ⟨b, rfl⟩ := sound.real e member
  exact delivered.parents b (mem_of_hash given)

section Shed

variable {reported gone taken : Finset Hash}

theorem Shed.anchored (shed : Shed facts q p reported gone taken)
    (anchored : Descent.Anchored (q.Grounded facts chain handed) (q.line facts)) :
    Descent.Anchored (p.Grounded facts chain handed) (p.line facts) := by
  rw [shed.line]
  refine anchored.filter ?_ ?_
  · intro h known
    refine known.imp_right (Or.imp_right fun bad => ?_)
    rw [shed.knownBad]
    exact Finset.mem_union_left _ bad
  · intro e _ leaves
    right; right
    simp only [decide_eq_false_iff_not, not_not] at leaves
    rw [shed.knownBad]
    simp [leaves]

theorem Shed.unchained (shed : Shed facts q p reported gone taken)
    (unchained : ∀ h, h ∈ q.readySet ∨ h ∈ q.unknownSet → h ∈ chain → h ∈ facts.hashes handed) :
    ∀ h, h ∈ p.readySet ∨ h ∈ p.unknownSet → h ∈ chain → h ∈ facts.hashes handed := by
  intro h known
  refine unchained h ?_
  rw [shed.readySet, shed.unknownSet] at known
  exact known.imp (fun ready => (Finset.mem_sdiff.mp ready).1)
    fun waiting => (Finset.mem_sdiff.mp waiting).1

theorem Attached.shed {drainingSet bad : Finset Hash} (attached : Attached facts chain handed q)
    (more : q.knownBad ⊆ bad)
    (shed : Shed facts { q with drainingSet := drainingSet, knownBad := bad } p reported gone taken)
    (fewer : p.verified ⊆ q.verified) (clean : p.Clean facts) : Attached facts chain handed p where
  anchored := by
    refine shed.anchored (attached.anchored.mono fun h known => ?_)
    exact known.imp_right (Or.imp_right (@more h))
  verified_good := fun _ member => clean.parent_good (mem_line_of_verified member)
  handed_good := fun _ member _ => clean.parent_good member
  valid := fun b member => attached.valid b (fewer member)
  unchained := shed.unchained attached.unchained

end Shed

section Verifier

theorem Attached.reline (attached : Attached facts chain handed q) {unverified : List α}
    {verifying : List (VerifyingSlot α)}
    (line : ({ q with unverified, verifying } : BlockQueue α).line facts = q.line facts) :
    Attached facts chain handed { q with unverified, verifying } :=
  ⟨line ▸ attached.anchored, attached.verified_good, line ▸ attached.handed_good, attached.valid,
    attached.unchained⟩

variable {work : α} (attached : Attached facts chain handed q) (sound : q.Sound facts)
  (delivered : Delivered facts chain handed)

include attached sound delivered

/-- A block that is not at hand is the parent of none that is verified or was handed out. -/
theorem Attached.unparented {h : Hash} (unchained : h ∉ chain) (ungiven : h ∉ facts.hashes handed)
    (unverified : h ∉ facts.hashes q.verified) :
    (∀ b ∈ q.verified, facts.parentHash b ≠ h) ∧
      ∀ e ∈ q.line facts, e.1 ∈ facts.hashes handed → e.2 ≠ h := by
  constructor
  · rintro b member rfl
    obtain inChain | given | verified := attached.verified_parent member
    · exact unchained inChain
    · exact ungiven given
    · exact unverified verified
  · rintro e member given rfl
    obtain inChain | given := delivered.line_parent sound member given
    · exact unchained inChain
    · exact ungiven given

theorem Attached.settle {b : α}
    {rest : List (VerifyingSlot α)} (front : q.verifying = .done b :: rest) :
    Attached facts chain handed (settle facts { q with verifying := rest } b) := by
  obtain ⟨gone, shed⟩ := sound.settle front
  have first : VerifyingSlot.done b ∈ q.verifying := by
    rw [front]
    exact List.mem_cons_self
  have listed : (VerifyingSlot.done b).entry facts ∈ q.line facts := mem_line_of_verifying first
  have before : ∀ e ∈ (BlockQueue.settle facts { q with verifying := rest } b).line facts,
      e ∈ q.line facts := by
    intro e member
    rw [shed.line] at member
    exact List.mem_of_mem_filter member
  by_cases bad : facts.parentHash b ∈ q.knownBad
  · -- The block is not at hand, or its parent would not be bad.
    have ungiven : facts.hash b ∉ facts.hashes handed :=
      fun given => attached.handed_good _ listed given bad
    have unchained : facts.hash b ∉ chain :=
      fun inChain => ungiven (attached.unchained _ (Or.inl (sound.ready_of_mem listed)) inChain)
    have unverified : facts.hash b ∉ facts.hashes q.verified := by
      intro verified
      have distinct := sound.distinct
      simp only [line, List.map_append, List.nodup_append] at distinct
      obtain ⟨c, member, same⟩ := BlockFacts.mem_hashes.mp verified
      exact distinct.1.2.2 _ (List.mem_map_of_mem (List.mem_map_of_mem member)) _
        (List.mem_map_of_mem (List.mem_map_of_mem first)) same
    obtain ⟨verified, given⟩ := attached.unparented sound delivered unchained ungiven unverified
    refine ⟨shed.anchored attached.anchored, ?_, ?_, ?_, shed.unchained attached.unchained⟩
    · rw [BlockQueue.settle, if_pos bad]
      intro c member
      rw [Finset.mem_insert, not_or]
      exact ⟨verified c member, attached.verified_good c member⟩
    · intro e member handedOut
      have knownBad : (BlockQueue.settle facts { q with verifying := rest } b).knownBad =
          insert (facts.hash b) q.knownBad := by rw [BlockQueue.settle, if_pos bad]
      rw [knownBad, Finset.mem_insert, not_or]
      exact ⟨given e (before e member) handedOut,
        attached.handed_good e (before e member) handedOut⟩
    · rw [BlockQueue.settle, if_pos bad]
      exact attached.valid
  · refine ⟨shed.anchored attached.anchored, ?_, ?_, ?_, shed.unchained attached.unchained⟩
    · rw [BlockQueue.settle, if_neg bad]
      intro c member
      obtain earlier | last := List.mem_append.mp member
      · exact attached.verified_good c earlier
      · rwa [List.mem_singleton.mp last]
    · intro e member
      have knownBad : (BlockQueue.settle facts { q with verifying := rest } b).knownBad =
          q.knownBad := by rw [BlockQueue.settle, if_neg bad]
      rw [knownBad]
      exact attached.handed_good e (before e member)
    · rw [BlockQueue.settle, if_neg bad]
      intro c member
      obtain earlier | last := List.mem_append.mp member
      · exact attached.valid c earlier
      · rw [List.mem_singleton.mp last]
        exact sound.done b first

theorem Attached.drainSlots {slots : List (VerifyingSlot α)} (whole : q.verifying = slots) :
    Attached facts chain handed (drainSlots facts slots q) := by
  induction slots generalizing q with
  | nil => exact attached
  | cons s rest ih =>
    cases s with
    | pending h parent => exact attached
    | done b =>
      obtain ⟨gone, shed⟩ := sound.settle whole
      exact ih (attached.settle sound delivered whole) (shed.sound sound) (verifying_settle b)

/-- A block that is not valid leaves, and no block that is verified or was handed out came after
it. -/
theorem Attached.rejectWork (tracked : q.Tracked facts work) (invalid : facts.valid work = false)
    (returned : facts.hash work ∈ chain → facts.hash work ∈ facts.hashes handed) :
    Attached facts chain handed (q.rejectWork facts work) := by
  have shed := sound.rejected tracked
  have ungiven : facts.hash work ∉ facts.hashes handed := by
    intro given
    exact Bool.false_ne_true (invalid.symm.trans (delivered.valid work (mem_of_hash given)))
  have unverified : facts.hash work ∉ facts.hashes q.verified := by
    intro verified
    exact Bool.false_ne_true (invalid.symm.trans (attached.valid work (mem_of_hash verified)))
  obtain ⟨verified, given⟩ := attached.unparented sound delivered
    (fun inChain => ungiven (returned inChain)) ungiven unverified
  have rejected : Attached facts chain handed (q.rejected facts work) := by
    refine ⟨shed.anchored attached.anchored, ?_, ?_, attached.valid,
      shed.unchained attached.unchained⟩
    · intro c member bad
      obtain same | known := Finset.mem_insert.mp bad
      · exact verified c member same
      · exact attached.verified_good c member known
    · intro e member handedOut bad
      rw [shed.line] at member
      have before := List.mem_of_mem_filter member
      obtain same | known := Finset.mem_insert.mp bad
      · exact given e before handedOut same
      · exact attached.handed_good e before handedOut known
  exact rejected.drainSlots (shed.sound sound) delivered rfl

theorem Attached.acceptWork (tracked : q.Tracked facts work) (valid : facts.valid work = true) :
    Attached facts chain handed (q.acceptWork facts work) := by
  have accepted : Attached facts chain handed (q.accepted facts work) :=
    attached.reline (line_accepted sound tracked)
  obtain result | result := acceptWork_cases facts q work
  · rw [result]
    exact accepted
  · rw [result]
    exact accepted.drainSlots (sound.accepted tracked valid) delivered rfl

theorem Attached.finishWork (tracked : q.Tracked facts work)
    (returned : facts.hash work ∈ chain → facts.hash work ∈ facts.hashes handed) :
    Attached facts chain handed (q.finishWork facts work) := by
  unfold BlockQueue.finishWork
  split
  · rename_i valid
    exact attached.acceptWork sound delivered tracked valid
  · rename_i invalid
    exact attached.rejectWork sound delivered tracked (by simpa using invalid) returned

end Verifier

section Import

variable {b : α}

theorem Attached.admitted (attached : Attached facts chain handed q) (sound : q.Sound facts)
    (hopeful : q.Hopeful facts) (draining : q.drainingSet ⊆ facts.hashes handed)
    (unchained : facts.hash b ∉ chain) (parent : facts.parentHash b ∉ q.knownBad)
    (known : q.attached chain (facts.parentHash b) = true) :
    Attached facts chain handed (q.admitted facts b) where
  anchored := by
    rw [line_admitted, Descent.anchored_append]
    refine ⟨attached.anchored, ?_, ?_⟩
    · obtain ready | out | inChain := attached_iff.mp known
      · exact Or.inr ((sound.ready _).mp ready)
      · exact Or.inl (Or.inr (Or.inl (draining out)))
      · exact Or.inl (Or.inl inChain)
    · -- The others descend from it, each after its parent.
      have descent : Descent.Anchored (· ∈ [facts.hash b])
          ((q.descendants facts (facts.hash b)).1.map facts.entry) := Descent.descend_anchored
      exact descent.mono fun h single => Or.inr (List.mem_singleton.mp single)
  verified_good := attached.verified_good
  handed_good := by
    intro e member given
    rw [line_admitted] at member
    obtain before | arrives := List.mem_append.mp member
    · exact attached.handed_good e before given
    · obtain ⟨u, arrival, rfl⟩ := List.mem_map.mp arrives
      obtain rfl | taken := List.mem_cons.mp arrival
      · exact parent
      · exact hopeful u (descendants_subset taken)
  valid := attached.valid
  unchained := by
    intro h present inChain
    obtain ready | waiting := present
    · rw [readySet_admitted, Finset.mem_union] at ready
      obtain before | arrives := ready
      · exact attached.unchained h (Or.inl before) inChain
      · obtain ⟨u, arrival, rfl⟩ := BlockFacts.mem_hashes.mp arrives
        obtain rfl | taken := List.mem_cons.mp arrival
        · exact absurd inChain unchained
        · exact attached.unchained _ (Or.inr (descendants_waiting sound taken)) inChain
    · exact attached.unchained h (Or.inr (Finset.mem_sdiff.mp waiting).1) inChain

variable (imported : Imported facts chain q b p)

include imported

theorem Imported.attached (attached : Attached facts chain handed q) (sound : q.Sound facts)
    (hopeful : q.Hopeful facts) (draining : q.drainingSet ⊆ facts.hashes handed)
    (fits : q.FitsImport facts b) : Attached facts chain handed p := by
  cases imported with
  | refused => exact attached
  | future fresh =>
    exact ⟨attached.anchored, attached.verified_good, attached.handed_good, attached.valid,
      attached.unchained⟩
  | bad fresh parent =>
    obtain ⟨gone, taken, shed, clean, fewer, -⟩ := sound.updateBad_child fits fresh parent
    exact attached.shed (Finset.subset_insert _ _) shed fewer clean
  | unknown fresh unchained parent detached =>
    refine ⟨attached.anchored, attached.verified_good, attached.handed_good, attached.valid, ?_⟩
    intro h present inChain
    obtain ready | waiting := present
    · exact attached.unchained h (Or.inl ready) inChain
    · obtain rfl | before := Finset.mem_insert.mp waiting
      · exact absurd inChain unchained
      · exact attached.unchained h (Or.inr before) inChain
  | ready fresh unchained parent known =>
    exact attached.admitted sound hopeful draining unchained parent known

theorem Imported.drainingSet (sound : q.Sound facts) (fits : q.FitsImport facts b) :
    p.drainingSet = q.drainingSet := by
  cases imported with
  | bad fresh parent =>
    obtain ⟨gone, taken, shed, -⟩ := sound.updateBad_child fits fresh parent
    exact shed.drainingSet
  | _ => rfl

theorem Imported.line (sound : q.Sound facts) (fits : q.FitsImport facts b) :
    (p.line facts).Sublist (q.line facts) ∨
      p.line facts = q.line facts ++ (p.unverified.drop q.unverified.length).map facts.entry := by
  cases imported with
  | refused => exact Or.inl (List.Sublist.refl _)
  | future fresh => exact Or.inl (List.Sublist.refl _)
  | bad fresh parent =>
    obtain ⟨gone, taken, shed, -⟩ := sound.updateBad_child fits fresh parent
    left
    rw [shed.line]
    exact List.filter_sublist
  | unknown => exact Or.inl (List.Sublist.refl _)
  | ready =>
    right
    change (q.admitted facts b).line facts = _ ++ ((q.admitted facts b).unverified.drop _).map _
    rw [line_admitted, unverified_admitted, List.drop_left]

end Import

section Finish

variable {work : α}

theorem Sound.finishWork_line (sound : q.Sound facts) (tracked : q.Tracked facts work) :
    ((q.finishWork facts work).line facts).Sublist (q.line facts) ∧
      (q.finishWork facts work).drainingSet = q.drainingSet := by
  obtain ⟨-, gone, shed⟩ | ⟨gone, shed⟩ := sound.finishWork_cases tracked
  · rw [shed.line, line_accepted sound tracked]
    exact ⟨List.filter_sublist, shed.drainingSet⟩
  · rw [shed.line]
    exact ⟨List.filter_sublist, shed.drainingSet⟩

end Finish

section Drain

variable (facts q) in
theorem drain_subset (max : ℕ) : (q.drain facts max).1 ⊆ q.verified ∧
    (q.drain facts max).2.verified ⊆ q.verified := by
  unfold BlockQueue.drain
  split
  · exact ⟨List.take_subset max q.verified, List.drop_subset max q.verified⟩
  · exact ⟨List.nil_subset _, List.Subset.refl _⟩

variable (facts q) in
theorem drainingSet_drain (max : ℕ) : (q.drain facts max).2.drainingSet ⊆
    q.drainingSet ∪ facts.hashes (q.drain facts max).1 := by
  unfold BlockQueue.drain
  split
  · exact Finset.subset_union_right
  · exact Finset.subset_union_left

theorem Attached.extend (attached : Attached facts chain handed q) {b : α} (member : b ∈ handed) :
    Attached facts (insert (facts.hash b) chain) handed q where
  anchored := attached.anchored.mono fun _ known => known.imp_left (Finset.mem_insert_of_mem)
  verified_good := attached.verified_good
  handed_good := attached.handed_good
  valid := attached.valid
  unchained := by
    intro h present inChain
    obtain rfl | before := Finset.mem_insert.mp inChain
    · exact BlockFacts.mem_hashes.mpr ⟨b, member, rfl⟩
    · exact attached.unchained h present before

variable (attached : Attached facts chain handed q) (sound : q.Sound facts)

include attached sound

/-- What is handed out comes after its parents, none of which is bad. -/
theorem Attached.handed_out (max : ℕ) {before after : List α} {b : α}
    (split : (q.drain facts max).1 = before ++ b :: after) :
    (facts.parentHash b ∈ chain ∨ facts.parentHash b ∈ facts.hashes handed ∨
      facts.parentHash b ∈ facts.hashes before) ∧ facts.parentHash b ∉ q.knownBad := by
  have member : b ∈ q.verified := by
    refine (drain_subset facts q max).1 ?_
    rw [split]
    exact List.mem_append_right _ List.mem_cons_self
  have good := attached.verified_good b member
  refine ⟨?_, good⟩
  have anchored := attached.anchored
  rw [(sound.drain max).2.1, split, List.map_append, List.map_cons, List.append_assoc,
    List.cons_append] at anchored
  obtain (inChain | given | bad) | earlier := anchored.parent
  · exact Or.inl inChain
  · exact Or.inr (Or.inl given)
  · exact absurd bad good
  · exact Or.inr (Or.inr (by simpa using earlier))

theorem Attached.drain (max : ℕ) :
    Attached facts chain (handed ++ (q.drain facts max).1) (q.drain facts max).2 := by
  obtain ⟨-, line, readySet⟩ := sound.drain max
  obtain ⟨-, unknownSet, knownBad⟩ := drain_unknown facts q max
  have fewer := (drain_subset facts q max).2
  refine ⟨?_, ?_, ?_, fun b member => attached.valid b (fewer member), ?_⟩
  · have anchored := attached.anchored
    rw [line, Descent.anchored_append] at anchored
    refine anchored.2.mono ?_
    rintro h ((inChain | given | bad) | out)
    · exact Or.inl inChain
    · exact Or.inr (Or.inl (mem_hashes_append.mpr (Or.inl given)))
    · exact Or.inr (Or.inr (knownBad ▸ bad))
    · exact Or.inr (Or.inl (mem_hashes_append.mpr (Or.inr (by simpa using out))))
  · rw [knownBad]
    exact fun b member => attached.verified_good b (fewer member)
  · intro e later given
    rw [knownBad]
    have before : e ∈ q.line facts := line ▸ List.mem_append_right _ later
    obtain ⟨b, member, same⟩ := BlockFacts.mem_hashes.mp given
    obtain old | out := List.mem_append.mp member
    · exact attached.handed_good e before (BlockFacts.mem_hashes.mpr ⟨b, old, same⟩)
    · -- Nothing that is handed out is still in line.
      have distinct := sound.distinct
      rw [line, List.map_append, List.nodup_append] at distinct
      exact absurd same (distinct.2.2 _ (List.mem_map_of_mem (List.mem_map_of_mem out)) _
        (List.mem_map_of_mem later))
  · intro h present inChain
    refine mem_hashes_append.mpr (Or.inl (attached.unchained h ?_ inChain))
    rw [readySet, unknownSet] at present
    exact present.imp_left fun ready => (Finset.mem_sdiff.mp ready).1

theorem Delivered.drain (delivered : Delivered facts chain handed) (max : ℕ) :
    Delivered facts chain (handed ++ (q.drain facts max).1) := by
  constructor
  · intro b member
    obtain old | out := List.mem_append.mp member
    · exact delivered.valid b old
    · exact attached.valid b ((drain_subset facts q max).1 out)
  · intro b member
    rw [mem_hashes_append]
    obtain old | out := List.mem_append.mp member
    · exact (delivered.parents b old).imp_right Or.inl
    · obtain ⟨before, after, split⟩ := List.append_of_mem out
      obtain ⟨inChain | given | earlier, -⟩ := attached.handed_out sound max split
      · exact Or.inl inChain
      · exact Or.inr (Or.inl given)
      · rw [split, mem_hashes_append]
        exact Or.inr (Or.inr (Or.inl earlier))

theorem Attached.doneDrain {bad : List Hash} (fits : q.FitsReport facts bad) :
    Attached facts chain handed (q.doneDrain facts bad).2 := by
  obtain rfl | some := eq_or_ne bad []
  · have knownBad : (q.doneDrain facts []).2.knownBad = q.knownBad := Finset.union_empty _
    refine ⟨?_, ?_, ?_, attached.valid, attached.unchained⟩
    · refine attached.anchored.mono fun h known => ?_
      rwa [Grounded, knownBad]
    · rw [knownBad]
      exact attached.verified_good
    · rw [knownBad]
      exact attached.handed_good
  · obtain ⟨gone, taken, shed, clean, fewer, -⟩ := sound.doneDrain fits
    exact attached.shed Finset.subset_union_left shed fewer (clean some)

end Drain

end BlockQueue

namespace BlockSystem

variable {α : Type} {facts : BlockFacts α} {s t : BlockSystem α}

/-- Blocks leave the queue after their parents and in the order in which they became ready. -/
structure Ordered (facts : BlockFacts α) (s : BlockSystem α) : Prop where
  sound : s.Sound facts
  delivered : BlockQueue.Delivered facts s.chain s.handed
  attached : BlockQueue.Attached facts s.chain s.handed s.queue
  draining : s.queue.drainingSet ⊆ facts.hashes s.handed
  working : ∀ w ∈ s.working, facts.hash w ∈ s.chain → facts.hash w ∈ facts.hashes s.handed
  order : (s.handed.map facts.hash ++ (s.queue.line facts).map Prod.fst).Sublist s.became

/-- A careful action other than to forget everything. -/
def Ordering (facts : BlockFacts α) (s : BlockSystem α) (a : Action α) : Prop :=
  s.Careful facts a ∧
    match a with
    | .clear => False
    | _ => True

instance (facts : BlockFacts α) (s : BlockSystem α) :
    (a : Action α) → Decidable (s.Ordering facts a)
  | .importBlock .. | .tickImport .. | .doneDrain _ | .clear | .takeWork | .finishWork _ | .drain _
  | .tick _ | .tickForget _ | .extend _ => inferInstanceAs (Decidable (_ ∧ _))

theorem ordered_start (chain : Finset Hash) : (start chain : BlockSystem α).Ordered facts := by
  refine ⟨sound_start chain, ⟨?_, ?_⟩, ⟨trivial, ?_, ?_, ?_, ?_⟩, ?_, ?_, ?_⟩ <;>
    simp [start, BlockQueue.empty, BlockQueue.line]

theorem queue_arrive (b : α) (isOurs irreversible : Bool) (now : ℕ) :
    (s.arrive facts b isOurs irreversible now).queue =
      (s.queue.importBlock facts s.chain b isOurs irreversible now).2 := rfl

theorem became_arrive (b : α) (isOurs irreversible : Bool) (now : ℕ) :
    (s.arrive facts b isOurs irreversible now).became = s.became ++
      ((s.queue.importBlock facts s.chain b isOurs irreversible now).2.unverified.drop
        s.queue.unverified.length).map facts.hash := rfl

theorem Ordered.arrive {b : α} {isOurs irreversible : Bool} {now : ℕ} (ordered : s.Ordered facts)
    (fits : s.queue.FitsImport facts b) :
    (s.arrive facts b isOurs irreversible now).Ordered facts := by
  have imported := BlockQueue.importBlock_imported facts s.queue s.chain b isOurs irreversible now
  have sound := ordered.sound.queue
  refine ⟨ordered.sound.arrive fits, ordered.delivered,
    imported.attached ordered.attached sound ordered.sound.hopeful ordered.draining fits, ?_,
    ordered.working, ?_⟩
  · rw [queue_arrive, imported.drainingSet sound fits]
    exact ordered.draining
  · rw [queue_arrive, became_arrive]
    obtain fewer | more := imported.line sound fits
    · refine ((fewer.map Prod.fst).append_left _).trans (ordered.order.trans ?_)
      exact List.sublist_append_left _ _
    · rw [more, List.map_append, ← List.append_assoc, List.map_map]
      exact ordered.order.append (List.Sublist.refl _)

theorem Ordered.drain (ordered : s.Ordered facts) (max : ℕ)
    (sound : Sound facts { s with
      queue := (s.queue.drain facts max).2
      handed := s.handed ++ (s.queue.drain facts max).1 }) :
    Ordered facts { s with
      queue := (s.queue.drain facts max).2
      handed := s.handed ++ (s.queue.drain facts max).1 } := by
  have queue := ordered.sound.queue
  have more : facts.hashes s.handed ⊆ facts.hashes (s.handed ++ (s.queue.drain facts max).1) :=
    fun _ old => BlockQueue.mem_hashes_append.mpr (Or.inl old)
  refine ⟨sound, ordered.delivered.drain ordered.attached queue max,
    ordered.attached.drain queue max, ?_, ?_, ?_⟩
  · refine (BlockQueue.drainingSet_drain facts s.queue max).trans (Finset.union_subset ?_ ?_)
    · exact ordered.draining.trans more
    · exact fun _ out => BlockQueue.mem_hashes_append.mpr (Or.inr out)
  · exact fun w member inChain => more (ordered.working w member inChain)
  · have order := ordered.order
    rw [(queue.drain max).2.1, List.map_append, ← List.append_assoc, List.map_map] at order
    rw [List.map_append]
    exact order

theorem Ordered.step {a : Action α} (ordered : s.Ordered facts) (ordering : s.Ordering facts a)
    (taken : step facts a s = some t) : t.Ordered facts := by
  -- The line grows at its end only, and a drain hands out its front.
  have sound := ordered.sound.step ordering.1 taken
  cases a with
  | importBlock b isOurs irreversible now =>
    obtain rfl := Option.some.inj taken
    exact ordered.arrive ordering.1
  | takeWork =>
    obtain ⟨⟨work, queue⟩, given, result⟩ := Option.bind_eq_some_iff.mp taken
    obtain rfl := Option.some.inj result
    have line := BlockQueue.line_takeWork given
    obtain ⟨rest, split, rfl⟩ := BlockQueue.takeWork_eq_some given
    have attached := ordered.attached
    refine ⟨sound, ordered.delivered, attached.reline line, ordered.draining, ?_, ?_⟩
    · intro w member
      obtain before | single := List.mem_append.mp member
      · exact ordered.working w before
      · rw [List.mem_singleton.mp single]
        refine attached.unchained _ (Or.inl ?_)
        refine ordered.sound.queue.ready_of_mem (BlockQueue.mem_line_of_unverified ?_)
        rw [split]
        exact List.mem_cons_self
    · rw [line]
      exact ordered.order
  | finishWork i =>
    obtain ⟨work, found, result⟩ := Option.bind_eq_some_iff.mp taken
    obtain rfl := Option.some.inj result
    have member := List.mem_of_getElem? found
    have tracked := ordered.sound.working work member
    obtain ⟨fewer, draining⟩ := ordered.sound.queue.finishWork_line tracked
    refine ⟨sound, ordered.delivered, ordered.attached.finishWork ordered.sound.queue
      ordered.delivered tracked (ordered.working work member), ?_, ?_, ?_⟩
    · rw [draining]
      exact ordered.draining
    · exact fun w left => ordered.working w (List.eraseIdx_subset left)
    · exact ((fewer.map Prod.fst).append_left _).trans ordered.order
  | drain max =>
    rw [step_drain, Option.some.injEq] at taken
    subst taken
    exact ordered.drain max sound
  | doneDrain bad =>
    obtain rfl := Option.some.inj taken
    have queue := ordered.sound.queue
    obtain ⟨gone, taken, shed, -⟩ := queue.doneDrain ordering.1
    refine ⟨sound, ordered.delivered, ordered.attached.doneDrain queue ordering.1, ?_,
      ordered.working, ?_⟩
    · rw [shed.drainingSet]
      exact Finset.empty_subset _
    · rw [shed.line]
      exact ((List.filter_sublist.map Prod.fst).append_left _).trans ordered.order
  | tick now =>
    obtain rfl := Option.some.inj taken
    exact ⟨sound, ordered.delivered, ⟨ordered.attached.anchored, ordered.attached.verified_good,
      ordered.attached.handed_good, ordered.attached.valid, ordered.attached.unchained⟩,
      ordered.draining, ordered.working, ordered.order⟩
  | tickForget i =>
    obtain ⟨b, found, result⟩ := Option.bind_eq_some_iff.mp taken
    obtain rfl := Option.some.inj result
    exact ⟨sound, ordered.delivered, ⟨ordered.attached.anchored, ordered.attached.verified_good,
      ordered.attached.handed_good, ordered.attached.valid, ordered.attached.unchained⟩,
      ordered.draining, ordered.working, ordered.order⟩
  | tickImport i irreversible now =>
    obtain ⟨b, found, result⟩ := Option.bind_eq_some_iff.mp taken
    obtain rfl := Option.some.inj result
    refine Ordered.arrive (s := { s with returning := s.returning.eraseIdx i }) ?_
      (ordering.1 b found)
    exact ⟨⟨ordered.sound.queue, ordered.sound.hopeful, ordered.sound.working,
      ordered.sound.distinct⟩, ordered.delivered, ordered.attached, ordered.draining,
      ordered.working, ordered.order⟩
  | clear => exact ordering.2.elim
  | extend i =>
    obtain ⟨b, found, result⟩ := Option.bind_eq_some_iff.mp taken
    obtain rfl := Option.some.inj result
    have member := List.mem_of_getElem? found
    refine ⟨sound, ⟨ordered.delivered.valid, ?_⟩, ordered.attached.extend member,
      ordered.draining, ?_, ordered.order⟩
    · exact fun c given => (ordered.delivered.parents c given).imp_left Finset.mem_insert_of_mem
    · intro w working inChain
      obtain same | before := Finset.mem_insert.mp inChain
      · exact BlockFacts.mem_hashes.mpr ⟨b, member, same.symm⟩
      · exact ordered.working w working before

/-- In every run of such actions, a block that is handed out comes after its parent, which is not
bad, and the blocks leave in the order in which they became ready. -/
theorem drain_ordered {chain : Finset Hash} {actions : List (Action α)} (max : ℕ)
    (ordering : Runs.Along (BlockSystem.step facts) (Ordering facts) actions (start chain))
    (ran : Runs.run (BlockSystem.step facts) actions (start chain) = some t) :
    (∀ before b after, (t.queue.drain facts max).1 = before ++ b :: after →
      (facts.parentHash b ∈ t.chain ∨ facts.parentHash b ∈ facts.hashes t.handed ∨
        facts.parentHash b ∈ facts.hashes before) ∧ facts.parentHash b ∉ t.queue.knownBad) ∧
    ((t.handed ++ (t.queue.drain facts max).1).map facts.hash).Sublist t.became := by
  have ordered : t.Ordered facts :=
    Runs.keeps (fun _ _ _ held fits taken => Ordered.step held fits taken) (ordered_start chain)
      ordering ran
  have queue := ordered.sound.queue
  constructor
  · intro before b after split
    exact ordered.attached.handed_out queue max split
  · have order := ordered.order
    rw [(queue.drain max).2.1, List.map_append, ← List.append_assoc, List.map_map] at order
    rw [List.map_append]
    exact (List.sublist_append_left _ _).trans order

/-- After the child of a bad block was taken out, the other block is handed out. -/
theorem drain_ordered_swept : ∃ t,
    sampleRun (sampleImports [0, 2, 1] ++ [.drain 1, .doneDrain [10]]) = some t ∧
      (t.queue.drain sampleFacts 5).1 = [2] ∧
      ((t.handed ++ (t.queue.drain sampleFacts 5).1).map sampleFacts.hash).Sublist t.became := by
  obtain ⟨t, ran⟩ := Option.isSome_iff_exists.mp
    (show (sampleRun (sampleImports [0, 2, 1] ++ [.drain 1, .doneDrain [10]])).isSome = true by
      decide +kernel)
  have out : (sampleRun (sampleImports [0, 2, 1] ++ [.drain 1, .doneDrain [10]])).map
      (fun s => (s.queue.drain sampleFacts 5).1) = some [2] := by
    decide +kernel
  rw [ran] at out
  exact ⟨t, ran, Option.some.inj out, (drain_ordered 5 (by decide +kernel) ran).2⟩

/-- The child of a bad block is taken out while another one is noted as bad in its place, so that
the block still counts as ready: its own child is handed out without it. -/
theorem drain_unordered :
    (sampleRun (sampleImports [0, 1, 2] ++ [.drain 1, .doneDrain [10],
        .importBlock 3 false false 10, .takeWork, .finishWork 0])).map
      (fun s => ((s.queue.drain sampleFacts 1).1.map sampleFacts.parentHash, s.chain,
        s.handed.map sampleFacts.hash)) = some ([11], {1}, [10]) := by
  decide +kernel

end BlockSystem

end Etiam
