import Etiam.Queue.Blocks

/-! What the block queue keeps in order, and what taking bad blocks out of it does. -/

namespace Etiam

namespace BlockFacts

variable {α : Type} {facts : BlockFacts α}

variable {blocks : List α}

@[simp] theorem mem_hashes {h : Hash} :
    h ∈ facts.hashes blocks ↔ ∃ b ∈ blocks, facts.hash b = h := by
  simp [hashes]

@[simp] theorem hashes_nil : facts.hashes [] = ∅ := rfl

theorem hashes_cons (b : α) (blocks : List α) :
    facts.hashes (b :: blocks) = insert (facts.hash b) (facts.hashes blocks) := List.toFinset_cons

theorem hashes_perm {others : List α} (perm : blocks.Perm others) :
    facts.hashes blocks = facts.hashes others :=
  List.toFinset_eq_of_perm _ _ (perm.map facts.hash)

theorem mem_map_hash {h : Hash} :
    h ∈ blocks.map facts.hash ↔ h ∈ facts.hashes blocks := List.mem_toFinset.symm

@[simp] theorem entry_fst (b : α) : (facts.entry b).1 = facts.hash b := rfl

@[simp] theorem entry_snd (b : α) : (facts.entry b).2 = facts.parentHash b := rfl

theorem marked_iff {bad : Finset Hash} {b : α} :
    facts.marked bad b = true ↔ facts.parentHash b ∈ bad ∨ facts.hash b ∈ bad := by
  simp [marked]

theorem marked_eq_false {bad : Finset Hash} {b : α} :
    facts.marked bad b = false ↔ facts.parentHash b ∉ bad ∧ facts.hash b ∉ bad := by
  simp [marked]

end BlockFacts

namespace VerifyingSlot

variable {α : Type} {facts : BlockFacts α}

@[simp] theorem entry_fst (s : VerifyingSlot α) : (s.entry facts).1 = s.hash facts := rfl

@[simp] theorem entry_snd (s : VerifyingSlot α) : (s.entry facts).2 = s.parentHash facts := rfl

theorem marked_iff {bad : Finset Hash} {s : VerifyingSlot α} :
    s.marked facts bad = true ↔ s.parentHash facts ∈ bad ∨ s.sha3Uncles facts ∈ bad := by
  simp [marked]

theorem marked_eq_false {bad : Finset Hash} {s : VerifyingSlot α} :
    s.marked facts bad = false ↔ s.parentHash facts ∉ bad ∧ s.sha3Uncles facts ∉ bad := by
  simp [marked]

end VerifyingSlot

namespace SizedBlockQueue

variable {β : Type} {p : β → Bool} {queue : List β}

/-- Where the members that go stand last, they are what is handed back. -/
theorem removeIf_eq (last : queue.Pairwise fun s t => p s = true → p t = true) :
    removeIf p queue = (queue.filter fun t => !p t, queue.filter p) := by
  have split : (queue.filter fun t => !p t) ++ queue.filter p = queue := by
    induction queue with
    | nil => rfl
    | cons s rest ih =>
      obtain ⟨here, later⟩ := List.pairwise_cons.mp last
      cases goes : p s with
      | false => simpa [goes] using ih later
      | true =>
        -- From the first one on, all members go.
        have all : ∀ t ∈ s :: rest, p t = true := by
          intro t member
          obtain rfl | behind := List.mem_cons.mp member
          · exact goes
          · exact here t behind goes
        have none : ((s :: rest).filter fun t => !p t) = [] := by
          rw [List.filter_eq_nil_iff]
          intro t member
          simp [all t member]
        rw [none, List.filter_eq_self.mpr all, List.nil_append]
  have tail : queue.drop (queue.filter fun t => !p t).length = queue.filter p := by
    conv_lhs => rw [← split]
    rw [List.filter_append]
    simp [List.filter_filter]
  rw [removeIf, tail]

theorem filter_eq_nil_and_self (none : ∀ t ∈ queue, p t = false) :
    queue.filter p = [] ∧ (queue.filter fun t => !p t) = queue := by
  constructor
  · simpa [List.filter_eq_nil_iff] using none
  · simpa [List.filter_eq_self] using none

end SizedBlockQueue

namespace BlockQueue

variable {α : Type} (facts : BlockFacts α)

section Order

variable (q : BlockQueue α)

/-- The blocks that are ready with their parents, in the order in which they leave. -/
def line : List (Hash × Hash) :=
  q.verified.map facts.entry ++ q.verifying.map (VerifyingSlot.entry facts) ++
    q.unverified.map facts.entry

/-- The sets of ready and of waiting blocks agree with the queues, and nothing waits for a block
that is ready. -/
structure Sound : Prop where
  distinct : ((q.line facts).map Prod.fst).Nodup
  ready : ∀ h, h ∈ q.readySet ↔ h ∈ (q.line facts).map Prod.fst
  real : ∀ e ∈ q.line facts, ∃ b, facts.entry b = e
  unknown_distinct : (q.unknown.map facts.hash).Nodup
  unknownSet : q.unknownSet = facts.hashes q.unknown
  apart : ∀ u ∈ q.unknown, facts.hash u ∉ q.readySet
  parents : ∀ u ∈ q.unknown, facts.parentHash u ∉ q.readySet
  done : ∀ b, .done b ∈ q.verifying → facts.valid b = true

/-- Some ready blocks are taken out as bad, and some that wait for their parents, while others are
reported to be bad. -/
structure Shed (q p : BlockQueue α) (reported gone taken : Finset Hash) : Prop where
  line : p.line facts = (q.line facts).filter fun e => e.1 ∉ gone
  pending : ∀ h parent, .pending h parent ∈ q.verifying → h ∉ gone → .pending h parent ∈ p.verifying
  done : ∀ b, .done b ∈ p.verifying → .done b ∈ q.verifying
  readySet : p.readySet = q.readySet \ gone
  unknown : p.unknown = q.unknown.filter fun u => facts.hash u ∉ taken
  unknownSet : p.unknownSet = q.unknownSet \ taken
  knownBad : p.knownBad = q.knownBad ∪ (reported ∪ gone ∪ taken)
  gone_ready : ∀ h ∈ gone, h ∈ q.readySet ∨ h ∈ reported
  taken_unknown : taken ⊆ q.unknownSet
  drainingSet : p.drainingSet = q.drainingSet
  futureSet : p.futureSet = q.futureSet
  future : p.future = q.future

end Order

variable {facts} {q p r : BlockQueue α}

theorem mem_line {e : Hash × Hash} : e ∈ q.line facts ↔
    (∃ b ∈ q.verified, facts.entry b = e) ∨ (∃ s ∈ q.verifying, s.entry facts = e) ∨
      ∃ b ∈ q.unverified, facts.entry b = e := by
  simp [line]

theorem mem_line_of_verified {b : α} (member : b ∈ q.verified) : facts.entry b ∈ q.line facts :=
  mem_line.mpr (Or.inl ⟨b, member, rfl⟩)

theorem mem_line_of_verifying {s : VerifyingSlot α} (member : s ∈ q.verifying) :
    s.entry facts ∈ q.line facts :=
  mem_line.mpr (Or.inr (Or.inl ⟨s, member, rfl⟩))

theorem mem_line_of_unverified {b : α} (member : b ∈ q.unverified) : facts.entry b ∈ q.line facts :=
  mem_line.mpr (Or.inr (Or.inr ⟨b, member, rfl⟩))

theorem Sound.ready_of_mem (sound : q.Sound facts) {e : Hash × Hash} (member : e ∈ q.line facts) :
    e.1 ∈ q.readySet :=
  (sound.ready e.1).mpr (List.mem_map_of_mem member)

theorem Sound.waiting (sound : q.Sound facts) {u : α} (member : u ∈ q.unknown) :
    facts.hash u ∈ q.unknownSet := by
  rw [sound.unknownSet]
  exact BlockFacts.mem_hashes.mpr ⟨u, member, rfl⟩

theorem Sound.childless {ι : Type} {l : List ι} (sound : q.Sound facts) (entry : ι → Hash × Hash)
    (lined : ∀ x ∈ l, entry x ∈ q.line facts) :
    ∀ u ∈ q.unknown, facts.parentHash u ∉ l.map fun x => (entry x).1 := by
  intro u waiting named
  obtain ⟨x, member, same⟩ := List.mem_map.mp named
  exact sound.parents u waiting (same ▸ sound.ready_of_mem (lined x member))

section Shed

variable {reported gone taken reported' gone' taken' : Finset Hash}

theorem Shed.refl (q : BlockQueue α) : Shed facts q q ∅ ∅ ∅ where
  line := by simp
  pending := fun _ _ member _ => member
  done := fun _ member => member
  readySet := by simp
  unknown := by simp
  unknownSet := by simp
  knownBad := by simp
  gone_ready := by simp
  taken_unknown := by simp
  drainingSet := rfl
  futureSet := rfl
  future := rfl

theorem Shed.trans (first : Shed facts q p reported gone taken)
    (second : Shed facts p r reported' gone' taken') :
    Shed facts q r (reported ∪ reported') (gone ∪ gone') (taken ∪ taken') where
  line := by
    rw [second.line, first.line, List.filter_filter]
    exact List.filter_congr fun e _ => by simp [Bool.and_comm]
  pending := by
    intro h parent member stays
    rw [Finset.mem_union, not_or] at stays
    exact second.pending h parent (first.pending h parent member stays.1) stays.2
  done := fun b member => first.done b (second.done b member)
  readySet := by rw [second.readySet, first.readySet, sdiff_sdiff_left, Finset.sup_eq_union]
  unknown := by
    rw [second.unknown, first.unknown, List.filter_filter]
    exact List.filter_congr fun u _ => by simp [Bool.and_comm]
  unknownSet := by rw [second.unknownSet, first.unknownSet, sdiff_sdiff_left, Finset.sup_eq_union]
  knownBad := by
    rw [second.knownBad, first.knownBad]
    ext h
    simp only [Finset.mem_union]
    tauto
  gone_ready := by
    intro h leaves
    rw [Finset.mem_union] at leaves ⊢
    obtain early | late := leaves
    · exact (first.gone_ready h early).imp_right Or.inl
    · refine (second.gone_ready h late).imp ?_ Or.inr
      rw [first.readySet]
      exact fun member => (Finset.mem_sdiff.mp member).1
  taken_unknown := by
    refine Finset.union_subset first.taken_unknown (second.taken_unknown.trans ?_)
    rw [first.unknownSet]
    exact Finset.sdiff_subset
  drainingSet := second.drainingSet.trans first.drainingSet
  futureSet := second.futureSet.trans first.futureSet
  future := second.future.trans first.future

theorem Shed.sound (shed : Shed facts q p reported gone taken) (sound : q.Sound facts) :
    p.Sound facts where
  distinct := by
    rw [shed.line]
    exact sound.distinct.sublist (List.filter_sublist.map Prod.fst)
  ready := by
    intro h
    rw [shed.readySet, Finset.mem_sdiff, sound.ready, shed.line]
    simp only [List.mem_map, List.mem_filter, decide_eq_true_eq]
    constructor
    · rintro ⟨⟨e, member, rfl⟩, stays⟩
      exact ⟨e, ⟨member, stays⟩, rfl⟩
    · rintro ⟨e, ⟨member, stays⟩, rfl⟩
      exact ⟨⟨e, member, rfl⟩, stays⟩
  real := by
    intro e member
    rw [shed.line] at member
    exact sound.real e (List.mem_of_mem_filter member)
  unknown_distinct := by
    rw [shed.unknown]
    exact sound.unknown_distinct.sublist (List.filter_sublist.map facts.hash)
  unknownSet := by
    rw [shed.unknownSet, shed.unknown, sound.unknownSet]
    ext h
    simp only [Finset.mem_sdiff, BlockFacts.mem_hashes, List.mem_filter, decide_eq_true_eq]
    constructor
    · rintro ⟨⟨u, member, rfl⟩, stays⟩
      exact ⟨u, ⟨member, stays⟩, rfl⟩
    · rintro ⟨u, ⟨member, stays⟩, rfl⟩
      exact ⟨⟨u, member, rfl⟩, stays⟩
  apart := by
    intro u member
    rw [shed.unknown] at member
    rw [shed.readySet]
    exact fun ready => sound.apart u (List.mem_of_mem_filter member) (Finset.mem_sdiff.mp ready).1
  parents := by
    intro u member
    rw [shed.unknown] at member
    rw [shed.readySet]
    exact fun ready => sound.parents u (List.mem_of_mem_filter member) (Finset.mem_sdiff.mp ready).1
  done := fun b member => sound.done b (shed.done b member)

theorem Sound.shedOut (sound : q.Sound facts) (leaving : List (Hash × Hash))
    (names : ∀ h, h ∈ gone ↔ h ∈ leaving.map Prod.fst)
    (perm : (leaving ++ p.line facts).Perm (q.line facts))
    (sub : (p.line facts).Sublist (q.line facts))
    (pending : ∀ h parent, .pending h parent ∈ q.verifying → h ∉ gone →
      .pending h parent ∈ p.verifying)
    (done : ∀ b, .done b ∈ p.verifying → .done b ∈ q.verifying)
    (kept : p = { q with
      verified := p.verified
      verifying := p.verifying
      unverified := p.unverified
      knownBad := q.knownBad ∪ gone
      readySet := q.readySet \ gone }) : Shed facts q p ∅ gone ∅ where
  line := by
    rw [Keyed.eq_filter_of_perm perm sub sound.distinct]
    refine List.filter_congr fun e _ => ?_
    rw [decide_eq_decide, names]
  pending := pending
  done := done
  readySet := by rw [kept]
  unknown := by rw [kept]; simp
  unknownSet := by rw [kept]; simp
  knownBad := by rw [kept]; simp
  gone_ready := by
    intro h leaves
    obtain ⟨e, member, rfl⟩ := List.mem_map.mp ((names h).mp leaves)
    exact Or.inl (sound.ready_of_mem (perm.subset (List.mem_append_left _ member)))
  taken_unknown := Finset.empty_subset _
  drainingSet := by rw [kept]
  futureSet := by rw [kept]
  future := by rw [kept]

end Shed

section Collect

theorem collectUnknownBad_eq_self {h : Hash} (childless : ∀ u ∈ q.unknown, facts.parentHash u ≠ h) :
    q.collectUnknownBad facts h = q := by
  simp [collectUnknownBad, descendants, Descent.descend_eq_self childless]

theorem Sound.collectUnknownBad (sound : q.Sound facts) (h : Hash) :
    Shed facts q (q.collectUnknownBad facts h) ∅ ∅ (facts.hashes (q.descendants facts h).1) where
  line := by simp [BlockQueue.collectUnknownBad, line]
  pending := fun _ _ member _ => member
  done := fun _ member => member
  readySet := by simp [BlockQueue.collectUnknownBad]
  unknown := by
    have rest : (q.descendants facts h).2 = q.unknown.filter fun u =>
        facts.hash u ∉ (q.descendants facts h).1.map facts.hash :=
      Descent.descend_rest sound.unknown_distinct
    refine Eq.trans rest (List.filter_congr fun u _ => ?_)
    simp
  unknownSet := rfl
  knownBad := by simp [BlockQueue.collectUnknownBad]
  gone_ready := by simp
  taken_unknown := by
    intro k taken
    obtain ⟨u, removed, rfl⟩ := BlockFacts.mem_hashes.mp taken
    exact sound.waiting (Descent.descend_perm.subset (List.mem_append_left _ removed))
  drainingSet := rfl
  futureSet := rfl
  future := rfl

theorem collectUnknownBad_closed {h : Hash} :
    ∀ u ∈ (q.collectUnknownBad facts h).unknown, facts.parentHash u ≠ h ∧
      facts.parentHash u ∉ facts.hashes (q.descendants facts h).1 := by
  intro u stays
  have room : [h].length + q.unknown.length ≤ 1 + q.unknown.length := le_rfl
  obtain ⟨unnamed, untaken⟩ := Descent.descend_closed room u stays
  refine ⟨by simpa using unnamed, ?_⟩
  simpa [descendants] using untaken

end Collect

section Condemn

theorem condemn_eq {h : Hash} (childless : ∀ u ∈ q.unknown, facts.parentHash u ≠ h) :
    q.condemn facts h =
      { q with knownBad := insert h q.knownBad, readySet := q.readySet.erase h } :=
  collectUnknownBad_eq_self childless

theorem foldl_condemn {hs : List Hash}
    (childless : ∀ u ∈ q.unknown, facts.parentHash u ∉ hs) :
    hs.foldl (condemn facts) q =
      { q with knownBad := q.knownBad ∪ hs.toFinset, readySet := q.readySet \ hs.toFinset } := by
  induction hs generalizing q with
  | nil => simp
  | cons h rest ih =>
    have here : ∀ u ∈ q.unknown, facts.parentHash u ≠ h := by
      intro u member same
      exact childless u member (same ▸ List.mem_cons_self)
    rw [List.foldl_cons, condemn_eq here, ih]
    · have bad : insert h q.knownBad ∪ rest.toFinset = q.knownBad ∪ (h :: rest).toFinset := by
        rw [List.toFinset_cons, Finset.insert_union, Finset.union_insert]
      have ready : q.readySet.erase h \ rest.toFinset = q.readySet \ (h :: rest).toFinset := by
        rw [List.toFinset_cons, Finset.sdiff_insert, Finset.erase_sdiff_comm]
      simp only [bad, ready]
    · intro u member later
      exact childless u member (List.mem_cons_of_mem h later)

end Condemn

section Sweep

variable (facts) (q)

/-- The verified blocks that are bad are taken out. -/
def sweptVerified : BlockQueue α :=
  let bad := q.verified.filter (facts.marked q.knownBad)
  { q with
    verified := q.verified.filter fun b => !facts.marked q.knownBad b
    knownBad := q.knownBad ∪ facts.hashes bad
    readySet := q.readySet \ facts.hashes bad }

/-- The unverified blocks that are bad are taken out. -/
def sweptUnverified : BlockQueue α :=
  let bad := q.unverified.filter (facts.marked q.knownBad)
  { q with
    unverified := q.unverified.filter fun b => !facts.marked q.knownBad b
    knownBad := q.knownBad ∪ facts.hashes bad
    readySet := q.readySet \ facts.hashes bad }

/-- The blocks being verified that are bad are taken out. -/
def sweptVerifying : BlockQueue α :=
  let bad := q.verifying.filter (VerifyingSlot.marked facts q.knownBad)
  { q with
    verifying := q.verifying.filter fun s => !s.marked facts q.knownBad
    knownBad := q.knownBad ∪ (bad.map (VerifyingSlot.hash facts)).toFinset
    readySet := q.readySet \ (bad.map (VerifyingSlot.hash facts)).toFinset }

/-- The bad blocks are taken out of the three queues, one queue after the other. -/
def swept : BlockQueue α := ((q.sweptVerified facts).sweptUnverified facts).sweptVerifying facts

/-- The bad blocks stand last in each queue when they are taken out of it, and no block that stays
has a parent that is bad then or that waits for its own parent. -/
structure Sweepable : Prop where
  verified : q.verified.Pairwise fun b c =>
    facts.marked q.knownBad b = true → facts.marked q.knownBad c = true
  unverified : q.unverified.Pairwise fun b c =>
    facts.marked (q.sweptVerified facts).knownBad b = true →
      facts.marked (q.sweptVerified facts).knownBad c = true
  verifying : q.verifying.Pairwise fun s t =>
    s.marked facts ((q.sweptVerified facts).sweptUnverified facts).knownBad = true →
      t.marked facts ((q.sweptVerified facts).sweptUnverified facts).knownBad = true
  parents : ∀ e ∈ (q.swept facts).line facts,
    e.2 ∉ (q.swept facts).knownBad ∧ e.2 ∉ q.unknownSet

instance : Decidable (q.Sweepable facts) :=
  -- The entries are gone through one by one, and not all hashes there are.
  have : Decidable (∀ e ∈ (q.swept facts).line facts,
      e.2 ∉ (q.swept facts).knownBad ∧ e.2 ∉ q.unknownSet) := List.decidableBAll _ _
  decidable_of_iff ((q.verified.Pairwise fun b c =>
      facts.marked q.knownBad b = true → facts.marked q.knownBad c = true) ∧
    (q.unverified.Pairwise fun b c =>
      facts.marked (q.sweptVerified facts).knownBad b = true →
        facts.marked (q.sweptVerified facts).knownBad c = true) ∧
    (q.verifying.Pairwise fun s t =>
      s.marked facts ((q.sweptVerified facts).sweptUnverified facts).knownBad = true →
        t.marked facts ((q.sweptVerified facts).sweptUnverified facts).knownBad = true) ∧
    ∀ e ∈ (q.swept facts).line facts, e.2 ∉ (q.swept facts).knownBad ∧ e.2 ∉ q.unknownSet)
    ⟨fun ⟨verified, unverified, verifying, parents⟩ => ⟨verified, unverified, verifying, parents⟩,
      fun all => ⟨all.verified, all.unverified, all.verifying, all.parents⟩⟩

variable {facts q}

section

variable (sound : q.Sound facts)

include sound

theorem sweepVerified_eq
    (last : q.verified.Pairwise fun b c =>
      facts.marked q.knownBad b = true → facts.marked q.knownBad c = true) :
    q.sweepVerified facts =
      (q.sweptVerified facts, !(q.verified.filter (facts.marked q.knownBad)).isEmpty) := by
  simp only [sweepVerified, SizedBlockQueue.removeIf_eq last]
  rw [foldl_condemn]
  · rfl
  · exact sound.childless facts.entry fun b member =>
      mem_line_of_verified (List.mem_of_mem_filter member)

theorem sweepUnverified_eq
    (last : q.unverified.Pairwise fun b c =>
      facts.marked q.knownBad b = true → facts.marked q.knownBad c = true) :
    q.sweepUnverified facts =
      (q.sweptUnverified facts, !(q.unverified.filter (facts.marked q.knownBad)).isEmpty) := by
  simp only [sweepUnverified, SizedBlockQueue.removeIf_eq last]
  rw [foldl_condemn]
  · rfl
  · exact sound.childless facts.entry fun b member =>
      mem_line_of_unverified (List.mem_of_mem_filter member)

theorem sweepVerifying_eq
    (last : q.verifying.Pairwise fun s t =>
      s.marked facts q.knownBad = true → t.marked facts q.knownBad = true) :
    q.sweepVerifying facts = (q.sweptVerifying facts,
      !(q.verifying.filter (VerifyingSlot.marked facts q.knownBad)).isEmpty) := by
  -- None of the places that are handed back has been moved, so each is named by its hash.
  have named : (q.verifying.filter (VerifyingSlot.marked facts q.knownBad)).map
      (fun s => if s.marked facts q.knownBad then s.hash facts else s.sha3Uncles facts) =
      (q.verifying.filter (VerifyingSlot.marked facts q.knownBad)).map
        (VerifyingSlot.hash facts) := by
    refine List.map_congr_left fun s member => ?_
    rw [if_pos (List.of_mem_filter member)]
  simp only [sweepVerifying, SizedBlockQueue.removeIf_eq last, named]
  rw [foldl_condemn]
  · rfl
  · exact sound.childless (VerifyingSlot.entry facts) fun s member =>
      mem_line_of_verifying (List.mem_of_mem_filter member)

theorem Sound.sweptVerified :
    Shed facts q (q.sweptVerified facts) ∅
      (facts.hashes (q.verified.filter (facts.marked q.knownBad))) ∅ := by
  refine sound.shedOut ((q.verified.filter (facts.marked q.knownBad)).map facts.entry)
    (by simp) ?_ ?_ (fun _ _ member _ => member) (fun _ member => member) rfl
  · simp only [line, BlockQueue.sweptVerified, List.append_assoc]
    rw [← List.append_assoc, ← List.map_append]
    exact ((List.filter_append_perm _ _).map _).append_right _
  · exact ((List.filter_sublist.map _).append_right _).append_right _

theorem Sound.sweptUnverified :
    Shed facts q (q.sweptUnverified facts) ∅
      (facts.hashes (q.unverified.filter (facts.marked q.knownBad))) ∅ := by
  refine sound.shedOut ((q.unverified.filter (facts.marked q.knownBad)).map facts.entry)
    (by simp) ?_ ?_ (fun _ _ member _ => member) (fun _ member => member) rfl
  · simp only [line, BlockQueue.sweptUnverified]
    refine (List.perm_append_comm_assoc _ _ _).trans ?_
    rw [← List.map_append]
    exact ((List.filter_append_perm _ _).map _).append_left _
  · exact (List.filter_sublist.map _).append_left _

theorem Sound.sweptVerifying :
    Shed facts q (q.sweptVerifying facts) ∅
      ((q.verifying.filter (VerifyingSlot.marked facts q.knownBad)).map
        (VerifyingSlot.hash facts)).toFinset ∅ := by
  refine sound.shedOut ((q.verifying.filter (VerifyingSlot.marked facts q.knownBad)).map
    (VerifyingSlot.entry facts)) (by simp) ?_ ?_ ?_ (fun _ => List.mem_of_mem_filter) rfl
  · simp only [line, BlockQueue.sweptVerifying, List.append_assoc]
    refine (List.perm_append_comm_assoc _ _ _).trans (List.Perm.append_left _ ?_)
    rw [← List.append_assoc, ← List.map_append]
    exact ((List.filter_append_perm _ _).map _).append_right _
  · exact ((List.filter_sublist.map _).append_left _).append_right _
  · intro h parent member stays
    refine List.mem_filter.mpr ⟨member, ?_⟩
    by_contra marked
    simp only [Bool.not_eq_true', Bool.not_eq_false] at marked
    exact stays (List.mem_toFinset.mpr
      (List.mem_map.mpr ⟨_, List.mem_filter.mpr ⟨member, marked⟩, rfl⟩))

theorem Sound.swept : ∃ gone, Shed facts q (q.swept facts) ∅ gone ∅ := by
  have first := sound.sweptVerified
  have second := (first.sound sound).sweptUnverified
  have third := (second.sound (first.sound sound)).sweptVerifying
  exact ⟨_, by simpa [BlockQueue.swept] using (first.trans second).trans third⟩

end

variable (facts q) in
theorem knownCount_sweptVerified : (q.sweptVerified facts).knownCount +
    (q.verified.filter (facts.marked q.knownBad)).length = q.knownCount := by
  have split := List.length_eq_length_filter_add (facts.marked q.knownBad) (l := q.verified)
  simp only [knownCount, sweptVerified]
  omega

variable (facts q) in
theorem knownCount_sweptUnverified : (q.sweptUnverified facts).knownCount +
    (q.unverified.filter (facts.marked q.knownBad)).length = q.knownCount := by
  have split := List.length_eq_length_filter_add (facts.marked q.knownBad) (l := q.unverified)
  simp only [knownCount, sweptUnverified]
  omega

variable (facts q) in
theorem knownCount_sweptVerifying : (q.sweptVerifying facts).knownCount +
    (q.verifying.filter (VerifyingSlot.marked facts q.knownBad)).length = q.knownCount := by
  have split := List.length_eq_length_filter_add (VerifyingSlot.marked facts q.knownBad)
    (l := q.verifying)
  simp only [knownCount, sweptVerifying]
  omega

theorem Sweepable.sweep (sweepable : q.Sweepable facts) (sound : q.Sound facts) :
    ∃ more, q.sweep facts = (q.swept facts, more) ∧
      (more = true → (q.swept facts).knownCount < q.knownCount) := by
  have first := sound.sweptVerified.sound sound
  have second := first.sweptUnverified.sound first
  simp only [BlockQueue.sweep]
  rw [sweepVerified_eq sound sweepable.verified]
  simp only
  rw [sweepUnverified_eq first sweepable.unverified]
  simp only
  rw [sweepVerifying_eq second sweepable.verifying]
  refine ⟨_, rfl, ?_⟩
  intro more
  have verified := knownCount_sweptVerified facts q
  have unverified := knownCount_sweptUnverified facts (q.sweptVerified facts)
  have verifying := knownCount_sweptVerifying facts ((q.sweptVerified facts).sweptUnverified facts)
  change (((q.sweptVerified facts).sweptUnverified facts).sweptVerifying facts).knownCount < _
  -- Where none gets shorter, there is nothing to take out.
  simp only [Bool.or_eq_true, Bool.not_eq_true', ← Bool.not_eq_true, List.isEmpty_iff,
    ← List.length_eq_zero_iff] at more
  omega

end Sweep

section Clean

variable (facts) (q)

/-- Nothing in the queues is found to be bad, and no block there has a parent that waits. -/
structure Clean : Prop where
  verified : ∀ b ∈ q.verified, facts.marked q.knownBad b = false
  unverified : ∀ b ∈ q.unverified, facts.marked q.knownBad b = false
  verifying : ∀ s ∈ q.verifying, s.marked facts q.knownBad = false
  parents : ∀ e ∈ q.line facts, e.2 ∉ q.unknownSet

variable {facts q}

section

variable (clean : q.Clean facts)

include clean

theorem Clean.sweptVerified : q.sweptVerified facts = q := by
  obtain ⟨none, all⟩ := SizedBlockQueue.filter_eq_nil_and_self clean.verified
  simp [BlockQueue.sweptVerified, none, all]

theorem Clean.sweptUnverified : q.sweptUnverified facts = q := by
  obtain ⟨none, all⟩ := SizedBlockQueue.filter_eq_nil_and_self clean.unverified
  simp [BlockQueue.sweptUnverified, none, all]

theorem Clean.swept : q.swept facts = q := by
  obtain ⟨none, all⟩ := SizedBlockQueue.filter_eq_nil_and_self clean.verifying
  rw [BlockQueue.swept, clean.sweptVerified, clean.sweptUnverified]
  simp [BlockQueue.sweptVerifying, none, all]

theorem Clean.parent_good {e : Hash × Hash} (member : e ∈ q.line facts) : e.2 ∉ q.knownBad := by
  intro bad
  obtain ⟨b, present, rfl⟩ | ⟨s, present, rfl⟩ | ⟨b, present, rfl⟩ := mem_line.mp member
  · exact absurd (BlockFacts.marked_iff.mpr (Or.inl bad)) (by simp [clean.verified b present])
  · exact absurd (VerifyingSlot.marked_iff.mpr (Or.inl bad)) (by simp [clean.verifying s present])
  · exact absurd (BlockFacts.marked_iff.mpr (Or.inl bad)) (by simp [clean.unverified b present])

theorem Clean.sweepable : q.Sweepable facts where
  verified := by
    refine List.pairwise_of_forall_mem_list fun b member c _ marked => ?_
    exact absurd marked (by simp [clean.verified b member])
  unverified := by
    rw [clean.sweptVerified]
    refine List.pairwise_of_forall_mem_list fun b member c _ marked => ?_
    exact absurd marked (by simp [clean.unverified b member])
  verifying := by
    rw [clean.sweptVerified, clean.sweptUnverified]
    refine List.pairwise_of_forall_mem_list fun s member t _ marked => ?_
    exact absurd marked (by simp [clean.verifying s member])
  parents := by
    rw [clean.swept]
    exact fun e member => ⟨clean.parent_good member, clean.parents e member⟩

end

theorem Sweepable.clean (sweepable : q.Sweepable facts) (sound : q.Sound facts) :
    (q.swept facts).Clean facts := by
  obtain ⟨gone, shed⟩ := sound.swept
  have knownBad : (q.swept facts).knownBad = q.knownBad ∪ gone := by simpa using shed.knownBad
  -- What was taken out has the hash of a block, and of none that is left.
  have stays : ∀ e ∈ (q.swept facts).line facts, e.1 ∉ gone := by
    intro e member
    rw [shed.line, List.mem_filter, decide_eq_true_eq] at member
    exact member.2
  have real : ∀ h ∈ gone, ∃ b, facts.hash b = h := by
    intro h leaves
    obtain ready | reported := shed.gone_ready h leaves
    · obtain ⟨e, member, rfl⟩ := List.mem_map.mp ((sound.ready h).mp ready)
      obtain ⟨b, rfl⟩ := sound.real e member
      exact ⟨b, rfl⟩
    · exact absurd reported (Finset.notMem_empty h)
  have good : ∀ h, h ∉ q.knownBad → h ∉ gone → h ∉ (q.swept facts).knownBad := by
    intro h before after
    rw [knownBad, Finset.mem_union, not_or]
    exact ⟨before, after⟩
  refine ⟨?_, ?_, ?_, fun e member => (sweepable.parents e member).2⟩
  · intro b member
    have listed : facts.entry b ∈ (q.swept facts).line facts := mem_line_of_verified member
    have unmarked : facts.marked q.knownBad b = false := by simpa using List.of_mem_filter member
    exact BlockFacts.marked_eq_false.mpr ⟨(sweepable.parents _ listed).1,
      good _ (BlockFacts.marked_eq_false.mp unmarked).2 (stays _ listed)⟩
  · intro b member
    have listed : facts.entry b ∈ (q.swept facts).line facts := mem_line_of_unverified member
    have unmarked : facts.marked (q.sweptVerified facts).knownBad b = false := by
      simpa using List.of_mem_filter member
    have unnamed := (BlockFacts.marked_eq_false.mp unmarked).2
    refine BlockFacts.marked_eq_false.mpr ⟨(sweepable.parents _ listed).1,
      good _ ?_ (stays _ listed)⟩
    exact fun bad => unnamed (Finset.mem_union_left _ bad)
  · intro s member
    have listed : s.entry facts ∈ (q.swept facts).line facts := mem_line_of_verifying member
    have unmarked : s.marked facts ((q.sweptVerified facts).sweptUnverified facts).knownBad =
        false := by simpa using List.of_mem_filter member
    have unnamed := (VerifyingSlot.marked_eq_false.mp unmarked).2
    refine VerifyingSlot.marked_eq_false.mpr ⟨(sweepable.parents _ listed).1, good _ ?_ ?_⟩
    · exact fun bad => unnamed (Finset.mem_union_left _ (Finset.mem_union_left _ bad))
    · cases s with
      | pending h parent => exact stays _ listed
      | done b =>
        -- The uncles of a block that has been verified do not have the hash of a block.
        intro leaves
        obtain ⟨c, same⟩ := real _ leaves
        exact facts.uncles_apart b c ((shed.sound sound).done b member) same.symm

end Clean

section UpdateBad

/-- The queue with some of the waiting blocks noted as bad. -/
def collected (q : BlockQueue α) (rest : List α) (taken : Finset Hash) : BlockQueue α :=
  { q with unknown := rest, unknownSet := q.unknownSet \ taken, knownBad := q.knownBad ∪ taken }

/-- Hashes that neither a block nor its parent has do not mark it. -/
theorem marked_union {bad more : Finset Hash} {parent own : Hash}
    (other : decide (parent ∈ bad ∨ own ∈ bad) = false → parent ∉ more) (unnamed : own ∉ more) :
    decide (parent ∈ bad ∪ more ∨ own ∈ bad ∪ more) = decide (parent ∈ bad ∨ own ∈ bad) := by
  by_cases before : parent ∈ bad ∨ own ∈ bad
  · have after := before.imp (Finset.mem_union_left more) (Finset.mem_union_left more)
    rw [decide_eq_true before, decide_eq_true after]
  · simp only [Finset.mem_union, other (decide_eq_false before), unnamed, or_false]

/-- Where the same members are marked, the same ones go and stay. -/
theorem filter_marked {ι : Type} {l : List ι} {marked marked' : ι → Bool}
    (same : ∀ b ∈ l, marked' b = marked b) :
    l.filter marked' = l.filter marked ∧
      (l.filter fun b => !marked' b) = l.filter fun b => !marked b :=
  ⟨List.filter_congr same, List.filter_congr fun b member => congrArg not (same b member)⟩

variable {taken : Finset Hash}

theorem sweptVerified_collected (rest : List α)
    (same : ∀ b ∈ q.verified, facts.marked (q.knownBad ∪ taken) b = facts.marked q.knownBad b) :
    (q.collected rest taken).sweptVerified facts =
      (q.sweptVerified facts).collected rest taken := by
  obtain ⟨goes, stays⟩ := filter_marked same
  simp only [sweptVerified, collected, goes, stays, Finset.union_right_comm]

theorem sweptUnverified_collected (rest : List α)
    (same : ∀ b ∈ q.unverified, facts.marked (q.knownBad ∪ taken) b = facts.marked q.knownBad b) :
    (q.collected rest taken).sweptUnverified facts =
      (q.sweptUnverified facts).collected rest taken := by
  obtain ⟨goes, stays⟩ := filter_marked same
  simp only [sweptUnverified, collected, goes, stays, Finset.union_right_comm]

theorem sweptVerifying_collected (rest : List α)
    (same : ∀ s ∈ q.verifying, s.marked facts (q.knownBad ∪ taken) = s.marked facts q.knownBad) :
    (q.collected rest taken).sweptVerifying facts =
      (q.sweptVerifying facts).collected rest taken := by
  obtain ⟨goes, stays⟩ := filter_marked same
  simp only [sweptVerifying, collected, goes, stays, Finset.union_right_comm]

theorem Sound.sha3Uncles_apart (sound : q.Sound facts) {s : VerifyingSlot α}
    (member : s ∈ q.verifying) : s.sha3Uncles facts ∉ q.unknownSet := by
  intro waiting
  rw [sound.unknownSet] at waiting
  obtain ⟨u, present, same⟩ := BlockFacts.mem_hashes.mp waiting
  cases s with
  | pending h parent =>
    exact sound.apart u present (same ▸ sound.ready_of_mem (mem_line_of_verifying member))
  | done b => exact facts.uncles_apart b u (sound.done b member) same.symm

theorem Sound.ready_apart (sound : q.Sound facts) {h : Hash} (ready : h ∈ q.readySet) :
    h ∉ q.unknownSet := by
  intro waiting
  rw [sound.unknownSet] at waiting
  obtain ⟨u, present, rfl⟩ := BlockFacts.mem_hashes.mp waiting
  exact sound.apart u present ready

variable (sweepable : q.Sweepable facts)

include sweepable

variable (sound : q.Sound facts)

include sound

/-- Noting waiting blocks as bad marks no other block, so that the same ones are taken out. -/
theorem Sweepable.collected {rest : List α} (waiting : taken ⊆ q.unknownSet) :
    (q.collected rest taken).Sweepable facts := by
  have left : ∀ e ∈ (q.swept facts).line facts, e.2 ∉ taken := by
    intro e member parent
    exact (sweepable.parents e member).2 (waiting parent)
  have own : ∀ e ∈ q.line facts, e.1 ∉ taken := by
    intro e member named
    exact sound.ready_apart (sound.ready_of_mem member) (waiting named)
  -- In each queue the same blocks are marked as before.
  have verified : ∀ b ∈ q.verified,
      facts.marked (q.knownBad ∪ taken) b = facts.marked q.knownBad b := by
    intro b member
    refine marked_union (fun unmarked => ?_) (own _ (mem_line_of_verified member))
    refine left (facts.entry b) (mem_line_of_verified ?_)
    exact List.mem_filter.mpr ⟨member, congrArg not unmarked⟩
  have unverified : ∀ b ∈ (q.sweptVerified facts).unverified,
      facts.marked ((q.sweptVerified facts).knownBad ∪ taken) b =
        facts.marked (q.sweptVerified facts).knownBad b := by
    intro b member
    refine marked_union (fun unmarked => ?_) (own _ (mem_line_of_unverified member))
    refine left (facts.entry b) (mem_line_of_unverified ?_)
    exact List.mem_filter.mpr ⟨member, congrArg not unmarked⟩
  have verifying : ∀ s ∈ ((q.sweptVerified facts).sweptUnverified facts).verifying,
      s.marked facts (((q.sweptVerified facts).sweptUnverified facts).knownBad ∪ taken) =
        s.marked facts ((q.sweptVerified facts).sweptUnverified facts).knownBad := by
    intro s member
    refine marked_union (fun unmarked => ?_)
      fun named => sound.sha3Uncles_apart member (waiting named)
    refine left (s.entry facts) (mem_line_of_verifying ?_)
    exact List.mem_filter.mpr ⟨member, congrArg not unmarked⟩
  have first := sweptVerified_collected rest verified
  have second := sweptUnverified_collected rest unverified
  have third := sweptVerifying_collected rest verifying
  have swept : (q.collected rest taken).swept facts = (q.swept facts).collected rest taken := by
    rw [BlockQueue.swept, first, second, third]
    rfl
  refine ⟨?_, ?_, ?_, ?_⟩
  · refine sweepable.verified.imp_of_mem fun {b c} hb hc last marked => ?_
    change facts.marked (q.knownBad ∪ taken) c = true
    rw [verified c hc]
    exact last ((verified b hb).symm.trans marked)
  · rw [first]
    refine sweepable.unverified.imp_of_mem fun {b c} hb hc last marked => ?_
    change facts.marked ((q.sweptVerified facts).knownBad ∪ taken) c = true
    rw [unverified c hc]
    exact last ((unverified b hb).symm.trans marked)
  · rw [first, second]
    refine sweepable.verifying.imp_of_mem fun {s t} hs ht last marked => ?_
    change t.marked facts (((q.sweptVerified facts).sweptUnverified facts).knownBad ∪ taken) = true
    rw [verifying t ht]
    exact last ((verifying s hs).symm.trans marked)
  · rw [swept]
    intro e member
    obtain ⟨good, attached⟩ := sweepable.parents e member
    refine ⟨?_, fun present => attached (Finset.mem_sdiff.mp present).1⟩
    change e.2 ∉ (q.swept facts).knownBad ∪ taken
    rw [Finset.mem_union, not_or]
    exact ⟨good, left e member⟩

theorem Sweepable.sweepAll {fuel : ℕ} (enough : q.knownCount < fuel) :
    sweepAll facts fuel q = q.swept facts := by
  obtain ⟨fuel, rfl⟩ := Nat.exists_eq_succ_of_ne_zero (Nat.ne_of_gt (Nat.zero_lt_of_lt enough))
  obtain ⟨more, once, fewer⟩ := sweepable.sweep sound
  have clean := sweepable.clean sound
  obtain ⟨gone, shed⟩ := sound.swept
  rw [BlockQueue.sweepAll, once]
  cases more with
  | false => rfl
  | true =>
    -- The next round finds nothing more.
    have shorter := fewer rfl
    obtain ⟨fuel, rfl⟩ := Nat.exists_eq_succ_of_ne_zero (show fuel ≠ 0 by omega)
    obtain ⟨again, twice, fewer⟩ := clean.sweepable.sweep (shed.sound sound)
    rw [clean.swept] at twice fewer
    have none : again = false := by
      cases again with
      | false => rfl
      | true => exact absurd (fewer rfl) (lt_irrefl _)
    simp [BlockQueue.sweepAll, twice, none]

/-- What the update for one bad block does, where the bad blocks stand last. -/
theorem Sweepable.updateBad (h : Hash) :
    ∃ gone taken, Shed facts q (q.updateBad facts h) ∅ gone taken ∧
      (q.updateBad facts h).Clean facts ∧ (q.updateBad facts h).verified ⊆ q.verified ∧
      ∀ u ∈ (q.updateBad facts h).unknown, facts.parentHash u ≠ h ∧
        facts.parentHash u ∉ gone ∧ facts.parentHash u ∉ taken := by
  have collecting := sound.collectUnknownBad h
  have settled := collecting.sound sound
  have ready : (q.collectUnknownBad facts h).Sweepable facts :=
    sweepable.collected sound collecting.taken_unknown
  have result : q.updateBad facts h = (q.collectUnknownBad facts h).swept facts :=
    Sweepable.sweepAll ready settled (Nat.lt_succ_self _)
  obtain ⟨gone, sweeping⟩ := settled.swept
  rw [result]
  refine ⟨gone, _, by simpa using collecting.trans sweeping, ready.clean settled, ?_, ?_⟩
  · exact List.filter_subset_self _
  · intro u waiting
    obtain ⟨other, untaken⟩ := collectUnknownBad_closed u waiting
    refine ⟨other, ?_, untaken⟩
    intro leaves
    -- Nothing waits for a block that was ready.
    obtain ready | reported := sweeping.gone_ready _ leaves
    · exact settled.parents u waiting ready
    · exact absurd reported (Finset.notMem_empty _)

theorem Sweepable.foldl_updateBad (hs : List Hash) :
    ∃ gone taken, Shed facts q (hs.foldl (BlockQueue.updateBad facts) q) ∅ gone taken ∧
      (hs ≠ [] → (hs.foldl (BlockQueue.updateBad facts) q).Clean facts) ∧
      (hs.foldl (BlockQueue.updateBad facts) q).verified ⊆ q.verified ∧
      ∀ u ∈ (hs.foldl (BlockQueue.updateBad facts) q).unknown, facts.parentHash u ∉ hs ∧
        facts.parentHash u ∉ gone ∧ facts.parentHash u ∉ taken := by
  induction hs generalizing q with
  | nil => exact ⟨∅, ∅, Shed.refl q, by simp, fun _ => id, by simp⟩
  | cons h rest ih =>
    obtain ⟨gone, taken, shed, clean, fewer, closed⟩ := sweepable.updateBad sound h
    obtain ⟨gone', taken', shed', clean', fewer', closed'⟩ :=
      ih clean.sweepable (shed.sound sound)
    rw [List.foldl_cons]
    refine ⟨gone ∪ gone', taken ∪ taken', by simpa using shed.trans shed', ?_, ?_, ?_⟩
    · intro _
      cases rest with
      | nil => exact clean
      | cons k rest => exact clean' (List.cons_ne_nil k rest)
    · exact List.Subset.trans fewer' fewer
    · intro u waiting
      -- What still waits at the end waited after the first update.
      have before : u ∈ (q.updateBad facts h).unknown := by
        rw [shed'.unknown] at waiting
        exact List.mem_of_mem_filter waiting
      obtain ⟨other, stays, untaken⟩ := closed u before
      obtain ⟨others, stays', untaken'⟩ := closed' u waiting
      simp only [List.mem_cons, Finset.mem_union, not_or]
      exact ⟨⟨other, others⟩, ⟨stays, stays'⟩, untaken, untaken'⟩

end UpdateBad

end BlockQueue

end Etiam
