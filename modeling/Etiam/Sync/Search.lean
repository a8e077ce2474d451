import Etiam.Sync.Collect

/-! The search for a common block goes down to the last irreversible block and ends there. -/

namespace Etiam

namespace BlockChainSync

open Chunks

variable {β : Type} {facts : BodyFacts β} {host : SyncHost β} {s t entry : BlockChainSync β}
  {event : Event β} {h : SyncHeader}

section Height

theorem Sited.nextTryCommonBlock_eq (sited : s.Sited) :
    s.nextTryCommonBlock = s.syncStartBlock := by
  obtain ⟨-, next⟩ | ⟨first, lowest, -, next⟩ := nextTryCommonBlock_cases sited.stored
    fun n present => Nat.zero_lt_of_lt (sited.above n present)
  · exact next
  · have := sited.above first lowest
    omega

theorem nextTryCommonBlock_floor (stored : s.Stored) {floor : ℕ}
    (low : ∀ n, lookup s.headers n ≠ none → floor < n) :
    s.nextTryCommonBlock = s.syncStartBlock ∨ floor ≤ s.nextTryCommonBlock := by
  obtain ⟨-, next⟩ | ⟨first, lowest, -, next⟩ := nextTryCommonBlock_cases stored
    fun n present => Nat.zero_lt_of_lt (low n present)
  · exact Or.inl next
  · have := low first lowest
    omega

theorem stored_accepted (sited : s.Sited) (absent : lookup s.headers h.blockNumber = none) {n : ℕ}
    (present : lookup (s.storeHeader facts h).headers n ≠ none) :
    n = h.blockNumber ∨ lookup s.headers n ≠ none := by
  rw [lookup_storeHeader sited.stored absent, Function.update_apply] at present
  split at present
  · exact Or.inl ‹_›
  · exact Or.inr present

variable (facts) in
/-- With an accepted header the search goes on below it and no higher than before. -/
theorem nextTryCommonBlock_accepted (sited : s.Sited) (positive : 0 < h.blockNumber)
    (absent : lookup s.headers h.blockNumber = none) :
    (s.storeHeader facts h).nextTryCommonBlock < h.blockNumber ∧
      (s.storeHeader facts h).nextTryCommonBlock ≤ s.syncStartBlock := by
  constructor
  · refine nextTryCommonBlock_lt (sited.stored.storeHeader absent) (fun n present => ?_) ?_
    · obtain rfl | before := stored_accepted sited absent present
      · exact positive
      · exact Nat.zero_lt_of_lt (sited.above n before)
    · rw [lookup_storeHeader sited.stored absent, Function.update_self]
      simp
  · have same : (s.storeHeader facts h).syncStartBlock = s.syncStartBlock := start_storeHeader
    exact same ▸ nextTryCommonBlock_le

end Height

section Search

/-- How many headers are accepted in a run. -/
def acceptedCount (facts : BodyFacts β) : List (Event β) → BlockChainSync β → ℕ
  | [], _ => 0
  | event :: rest, s =>
    (if (s.accepts event).isSome then 1 else 0) + acceptedCount facts rest (handle facts event s)

/-- Where a search is that has accepted a number of headers since its entry. -/
structure Searching (entry : BlockChainSync β) (count : ℕ) (s : BlockChainSync β) : Prop where
  orderly : s.Orderly
  sited : s.Sited
  /-- Nothing is stored up to the last irreversible block. -/
  low : ∀ n, lookup s.headers n ≠ none → entry.syncLastIrrBlock < n
  lastIrr : s.currState = .findingCommonBlock → s.syncLastIrrBlock = entry.syncLastIrrBlock
  /-- But for the first one, each accepted header has brought the search down. -/
  down : s.currState = .findingCommonBlock → s.syncStartBlock ≤ entry.syncStartBlock ∧
    count + s.syncStartBlock ≤ entry.syncStartBlock + 1
  floor : s.currState = .findingCommonBlock →
    entry.syncLastIrrBlock ≤ s.syncStartBlock ∨ s.syncStartBlock = entry.syncStartBlock
  fresh : s.currState = .findingCommonBlock → s.headers = [] → count = 0

theorem accepts_eq_some (accepts : s.accepts event = some h) :
    s.currState = .findingCommonBlock ∧ ∃ host peer,
      event = .peerBlockHeaders host peer (some [h]) ∧ isCommon host h.hash = false := by
  unfold BlockChainSync.accepts at accepts
  split at accepts
  · rename_i host peer items
    split at accepts
    · rename_i finding
      unfold accepted at accepts
      split at accepts
      · rename_i g
        split at accepts
        · rename_i fits
          obtain rfl := Option.some.inj accepts
          exact ⟨finding, host, peer, rfl, fits.2.2⟩
        · cases accepts
      · cases accepts
    · cases accepts
  · cases accepts

variable (facts) in
theorem accepts_cases (orderly : s.Orderly) (plain : event.plain = true)
    (accepts : s.accepts event = some h) :
    (handle facts event s).currState = .idle ∨ ∃ host, s.isExpectBlockHeader h = true ∧
      s.syncLastIrrBlock < h.blockNumber ∧ Sync.haveItem s.headers h.blockNumber = false ∧
      Kept ((s.storeHeader facts h).moveToNextCommonBlock host) (handle facts event s) := by
  obtain ⟨finding, host, peer, received, unknown⟩ := accepts_eq_some accepts
  cases orderly.outcome facts plain with
  | clear clear idle => exact Or.inl (idle finding)
  | continues passed continues =>
    rw [passed] at accepts
    cases accepts
  | searched host' peer' items received' searching outcome =>
    obtain ⟨rfl, rfl, rfl⟩ := Event.peerBlockHeaders.inj (received.symm.trans received')
    cases outcome with
    | idled idled => exact Or.inl idled.idle
    | kept passed kept =>
      subst received
      rw [BlockChainSync.accepts, if_pos finding, passed] at accepts
      cases accepts
    | stored g single expected high absent unknown kept =>
      obtain rfl : h = g := by simpa using single
      exact Or.inr ⟨host, expected, high, absent, kept⟩
    | found g single expected high absent common some continues =>
      obtain rfl : h = g := by simpa using single
      rw [common] at unknown
      cases unknown
  | headers _ _ _ _ _ downloading =>
    rw [finding] at downloading
    cases downloading
  | bodies _ _ _ _ _ _ downloading =>
    rw [finding] at downloading
    cases downloading

/-- A header of a common block is found, and blocks are downloaded after it. -/
structure Found (event : Event β) (s t : BlockChainSync β) : Prop where
  downloading : t.currState = .syncBlocks
  headers : t.headers = s.headers
  common : ∃ host peer h, event = .peerBlockHeaders host peer (some [h]) ∧
    isCommon host h.hash = true ∧ t.syncStartBlock = h.blockNumber ∧ t.syncStartBlockHash = h.hash

variable (facts) in
/-- An event that brings no accepted header ends the search, finds a common block, or leaves the
search as it is. -/
theorem passed_cases (orderly : s.Orderly) (plain : event.plain = true)
    (finding : s.currState = .findingCommonBlock) (passed : s.accepts event = none) :
    (handle facts event s).currState = .idle ∨ Found event s (handle facts event s) ∨
      (handle facts event s).headers = s.headers ∧
      (handle facts event s).currState = s.currState ∧
      (handle facts event s).syncStartBlock = s.syncStartBlock ∧
      (handle facts event s).syncLastIrrBlock = s.syncLastIrrBlock := by
  cases orderly.outcome facts plain with
  | clear clear idle => exact Or.inl (idle finding)
  | continues _ continues =>
    obtain idled | ⟨headers, currState, start, -, lastIrr⟩ := continues.same
    · exact Or.inl idled.idle
    · exact Or.inr (Or.inr ⟨headers, currState, start, lastIrr⟩)
  | searched host peer items received searching outcome =>
    cases outcome with
    | idled idled => exact Or.inl idled.idle
    | kept _ kept =>
      exact Or.inr (Or.inr ⟨kept.headers, kept.currState, kept.start, kept.lastIrr⟩)
    | stored h single expected high absent unknown kept =>
      subst received single
      rw [BlockChainSync.accepts, if_pos finding, accepted, if_pos ⟨expected, absent, unknown⟩]
        at passed
      cases passed
    | found h single expected high absent common some continues =>
      subst received single
      obtain idled | ⟨headers, downloading, start, startHash, -⟩ := continues.same
      · exact Or.inl idled.idle
      · exact Or.inr (Or.inl ⟨downloading, headers, host, peer, h, rfl, common, start, startHash⟩)
  | headers _ _ _ _ _ downloading =>
    rw [finding] at downloading
    cases downloading
  | bodies _ _ _ _ _ _ downloading =>
    rw [finding] at downloading
    cases downloading

theorem Searching.of_left {count : ℕ} (orderly : s.Orderly) (sited : s.Sited)
    (low : ∀ n, lookup s.headers n ≠ none → entry.syncLastIrrBlock < n)
    (left : s.currState ≠ .findingCommonBlock) : Searching entry count s where
  orderly := orderly
  sited := sited
  low := low
  lastIrr := fun finding => absurd finding left
  down := fun finding => absurd finding left
  floor := fun finding => absurd finding left
  fresh := fun finding => absurd finding left

theorem Searching.of_idle {count : ℕ} (orderly : s.Orderly) (idle : s.currState = .idle) :
    Searching entry count s := by
  have clear : s.Clear := orderly.clear (by simp [idle]) (by simp [idle])
  refine .of_left orderly clear.sited (fun n present => ?_) (by simp [idle])
  simp [clear.headers, lookup] at present

theorem Searching.advance {count : ℕ} (searching : Searching entry count s)
    (finding : s.currState = .findingCommonBlock) (plain : event.plain = true) :
    Searching entry (count + if (s.accepts event).isSome then 1 else 0)
      (handle facts event s) := by
  have orderly : (handle facts event s).Orderly := searching.orderly.handle plain
  have sited := searching.sited.outcome (searching.orderly.outcome facts plain)
  cases accepts : s.accepts event with
  | none =>
    obtain idle | found | ⟨headers, -, start, lastIrr⟩ :=
      passed_cases facts searching.orderly plain finding accepts
    · exact .of_idle orderly idle
    · refine .of_left orderly sited ?_ (by simp [found.downloading])
      rw [found.headers]
      exact searching.low
    · refine ⟨orderly, sited, ?_, fun _ => ?_, fun _ => ?_, fun _ => ?_, fun _ => ?_⟩
      · rw [headers]
        exact searching.low
      · rw [lastIrr]
        exact searching.lastIrr finding
      · rw [start]
        exact searching.down finding
      · rw [start]
        exact searching.floor finding
      · rw [headers]
        exact searching.fresh finding
  | some h =>
    obtain idle | ⟨host, expected, high, absent, kept⟩ :=
      accepts_cases facts searching.orderly plain accepts
    · exact .of_idle orderly idle
    have absent := (searching.sited.stored.haveItem_header _).mp absent
    rw [searching.lastIrr finding] at high
    obtain ⟨below, least⟩ :=
      nextTryCommonBlock_accepted facts searching.sited (Nat.zero_lt_of_lt high) absent
    have low : ∀ n, lookup (s.storeHeader facts h).headers n ≠ none →
        entry.syncLastIrrBlock < n := by
      intro n present
      obtain rfl | before := stored_accepted searching.sited absent present
      · exact high
      · exact searching.low n before
    have headers : (handle facts event s).headers = (s.storeHeader facts h).headers := kept.headers
    have start : (handle facts event s).syncStartBlock =
        (s.storeHeader facts h).nextTryCommonBlock := kept.start
    refine ⟨orderly, sited, ?_, fun _ => ?_, fun _ => ?_, fun _ => ?_, fun _ none => ?_⟩
    · rw [headers]
      exact low
    · exact kept.lastIrr.trans (lastIrr_storeHeader.trans (searching.lastIrr finding))
    · have down := searching.down finding
      rw [start, Option.isSome_some, if_pos rfl]
      by_cases first : s.headers = []
      · -- The first header may be above the start.
        have := searching.fresh finding first
        omega
      · -- Any other has the number of the start.
        have := searching.sited.expected finding first expected
        omega
    · have floor := nextTryCommonBlock_floor (searching.sited.stored.storeHeader absent) low
      have before := searching.floor finding
      rw [start_storeHeader] at floor
      rw [start]
      omega
    · rw [headers] at none
      have present : lookup (s.storeHeader facts h).headers h.blockNumber = some h := by
        rw [lookup_storeHeader searching.sited.stored absent, Function.update_self]
      simp [none, lookup] at present

theorem Searching.run {count : ℕ} {events : List (Event β)} (searching : Searching entry count s)
    (along : Runs.Along (step facts)
      (fun s event => event.plain = true ∧ s.currState = .findingCommonBlock) events s)
    (ran : Runs.run (step facts) events s = some t) :
    Searching entry (count + acceptedCount facts events s) t := by
  -- The count grows with each event as the bound does.
  induction events generalizing s count with
  | nil =>
    obtain rfl := Option.some.inj ran
    exact searching
  | cons event rest ih =>
    obtain ⟨⟨plain, finding⟩, later⟩ := along
    have next := ih (searching.advance finding plain) later ran
    rwa [Nat.add_assoc] at next

theorem searching_entry (noted : s.state = .findingCommonBlock)
    (finding : s.currState = .findingCommonBlock) (headers : s.headers = [])
    (bodies : s.bodies = []) : Searching s 0 s where
  orderly := ⟨⟨noted.trans finding.symm, by simp [finding]⟩, fun other => absurd finding other⟩
  sited := by
    refine ⟨⟨?_, ?_, ?_, ?_⟩, ?_, fun _ some => absurd headers some⟩
    · rw [headers]
      exact separated_nil
    · rw [bodies]
      exact separated_nil
    · simp [headers, lookup]
    · simp [bodies, lookup]
    · intro n
      simp [headers, lookup]
  low := by simp [headers, lookup]
  lastIrr := fun _ => rfl
  down := fun _ => ⟨le_rfl, by omega⟩
  floor := fun _ => Or.inr rfl
  fresh := fun _ _ => rfl

/-- Where a search goes on with an accepted header, it goes on below it and no higher than before;
only with a first header above where it was, it is not lower. -/
theorem search_lowers (orderly : s.Orderly) (sited : s.Sited) (plain : event.plain = true)
    (accepts : s.accepts event = some h)
    (goes : (handle facts event s).currState = .findingCommonBlock) :
    (handle facts event s).nextTryCommonBlock < h.blockNumber ∧
      (handle facts event s).nextTryCommonBlock ≤ s.nextTryCommonBlock ∧
      (s.headers ≠ [] ∨ h.blockNumber ≤ s.nextTryCommonBlock →
        (handle facts event s).nextTryCommonBlock < s.nextTryCommonBlock) := by
  have after : (handle facts event s).Sited := sited.outcome (orderly.outcome facts plain)
  obtain idle | ⟨host, expected, high, absent, kept⟩ := accepts_cases facts orderly plain accepts
  · rw [idle] at goes
    cases goes
  have absent := (sited.stored.haveItem_header _).mp absent
  obtain ⟨below, least⟩ := nextTryCommonBlock_accepted facts sited (Nat.zero_lt_of_lt high) absent
  have start : (handle facts event s).syncStartBlock =
      (s.storeHeader facts h).nextTryCommonBlock := kept.start
  rw [after.nextTryCommonBlock_eq, sited.nextTryCommonBlock_eq, start]
  refine ⟨below, least, ?_⟩
  rintro (later | low)
  · have := sited.expected (accepts_eq_some accepts).1 later expected
    omega
  · omega

/-- A search stores no header below the last irreversible block, goes down with each header that it
accepts, and is over before it has accepted more than there are blocks to the last irreversible one
and one more; then the sync is idle or has found a common block. -/
theorem search_ends {events : List (Event β)} (noted : s.state = .findingCommonBlock)
    (finding : s.currState = .findingCommonBlock) (headers : s.headers = [])
    (bodies : s.bodies = [])
    (along : Runs.Along (step facts)
      (fun s event => event.plain = true ∧ s.currState = .findingCommonBlock) events s)
    (ran : Runs.run (step facts) events s = some t) :
    (∀ n, lookup t.headers n ≠ none → s.syncLastIrrBlock ≤ n) ∧
    (t.currState = .findingCommonBlock →
      acceptedCount facts events s < s.syncStartBlock - s.syncLastIrrBlock + 2) ∧
    ∀ event, event.plain = true → t.currState = .findingCommonBlock →
      ((handle facts event t).currState = .findingCommonBlock → ∀ h, t.accepts event = some h →
        (handle facts event t).nextTryCommonBlock < h.blockNumber ∧
        (handle facts event t).nextTryCommonBlock ≤ t.nextTryCommonBlock ∧
        (t.headers ≠ [] ∨ h.blockNumber ≤ t.nextTryCommonBlock →
          (handle facts event t).nextTryCommonBlock < t.nextTryCommonBlock)) ∧
      ((handle facts event t).currState ≠ .findingCommonBlock →
        (handle facts event t).currState = .idle ∨ Found event t (handle facts event t)) := by
  have searching : Searching s (0 + acceptedCount facts events s) t :=
    (searching_entry noted finding headers bodies).run along ran
  refine ⟨fun n present => (searching.low n present).le, fun finding => ?_, ?_⟩
  · have down := searching.down finding
    have floor := searching.floor finding
    omega
  · intro event plain finding
    refine ⟨fun goes h accepts =>
      search_lowers searching.orderly searching.sited plain accepts goes, fun left => ?_⟩
    cases accepts : t.accepts event with
    | none =>
      obtain idle | found | ⟨-, same, -⟩ :=
        passed_cases facts searching.orderly plain finding accepts
      · exact Or.inl idle
      · exact Or.inr found
      · exact absurd (same.trans finding) left
    | some h =>
      obtain idle | ⟨host, -, -, -, kept⟩ := accepts_cases facts searching.orderly plain accepts
      · exact Or.inl idle
      · exact absurd (kept.currState.trans (currState_storeHeader.trans finding)) left

/-- The latest header, and two headers of the other branch that are not known. -/
def downward : List (Event ℕ) :=
  [sampleHeaders [(0, 8)], sampleHeaders [(1, 5)], sampleHeaders [(1, 4)]]

/-- The search of the sample chain accepts three headers one after another and goes on. -/
theorem search_ends_downward : ∃ s t, sampleSync [.peerStatus sampleSyncHost samplePeer] = some s ∧
    Runs.run (step sampleBodies) downward s = some t ∧
    t.currState = .findingCommonBlock ∧ acceptedCount sampleBodies downward s = 3 ∧
    acceptedCount sampleBodies downward s < s.syncStartBlock - s.syncLastIrrBlock + 2 := by
  refine ⟨_, _, rfl, rfl, rfl, by decide +kernel, ?_⟩
  exact (search_ends rfl rfl rfl rfl (by decide +kernel) rfl).2.1 rfl

/-- The latest header is accepted by its hash and is above where the search is, which goes on
there. -/
theorem search_stays :
    (sampleSync [.peerStatus sampleSyncHost samplePeer]).bind
        (fun s => s.accepts (sampleHeaders [(0, 8)])) = some (sampleHeader 0 8) ∧
      (sampleSync [.peerStatus sampleSyncHost samplePeer]).map (·.nextTryCommonBlock) = some 5 ∧
      (sampleSync [.peerStatus sampleSyncHost samplePeer, sampleHeaders [(0, 8)]]).map
        (fun s => (s.currState, s.nextTryCommonBlock)) = some (.findingCommonBlock, 5) := by
  decide +kernel

end Search

end BlockChainSync

end Etiam
