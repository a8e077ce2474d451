import Etiam.Sync.Stored

/-! Where the stored headers are in every run, and what is left once blocks are put together. -/

namespace Etiam

namespace BlockChainSync

open Chunks

variable {β : Type} {facts : BodyFacts β} {host : SyncHost β} {s t : BlockChainSync β}

section Collect

/-- The blocks that are put together, those next to the start that have a header and a body. -/
def joined (s : BlockChainSync β) : List (SyncHeader × β) :=
  match s.headers, s.bodies with
  | (first, headers) :: _, (firstBody, bodies) :: _ =>
    if first = firstBody ∧ first = nextNumber s.syncStartBlock then headers.zip bodies else []
  | _, _ => []

theorem progress_ahead {result : ImportResult} (proper : result ≠ .overbidGasPrice ∧
    result ≠ .zeroSignature) :
    progress true result = .advance ∨ progress true result = .restart := by
  cases result with
  | overbidGasPrice => exact absurd rfl proper.1
  | zeroSignature => exact absurd rfl proper.2
  | _ => simp [progress]

/-- The hash of the last of some blocks, if there are any. -/
def lastHash (blocks : List (SyncHeader × β)) (hash : Hash) : Hash :=
  (blocks.getLast?.map fun block => block.1.hash).getD hash

variable {first : ℕ} {headers : List SyncHeader}

variable (host) in
theorem importBlocks_cases {i : ℕ} (blocks : List (SyncHeader × β))
    (next : first + i = s.syncStartBlock + 1) :
    (∃ j u, importBlocks host first i blocks s = (some .failure, j, resetSyncTempData u)) ∨
      importBlocks host first i blocks s = (none, i + blocks.length,
        s.setStart (s.syncStartBlock + blocks.length) (lastHash blocks s.syncStartBlockHash)) := by
  induction blocks generalizing s i with
  | nil => exact Or.inr rfl
  | cons block rest ih =>
    obtain ⟨header, body⟩ := block
    rw [importBlocks, decide_eq_true (by omega)]
    obtain advance | restart := progress_ahead (host.import_answers header body)
    · rw [advance]
      simp only
      obtain failed | done := ih (s := s.setStart (first + i) header.hash) (i := i + 1) rfl
      · exact Or.inl failed
      · right
        have count : i + 1 + rest.length = i + ((header, body) :: rest).length := by
          simp only [List.length_cons]
          omega
        have reached : first + i + rest.length =
            s.syncStartBlock + ((header, body) :: rest).length := by
          simp only [List.length_cons]
          omega
        have hash : lastHash rest header.hash =
            lastHash ((header, body) :: rest) s.syncStartBlockHash := by
          cases rest with
          | nil => rfl
          | cons second others =>
            unfold lastHash
            rw [List.getLast?_cons_cons,
              List.getLast?_eq_some_getLast (List.cons_ne_nil second others)]
            rfl
        rw [done, count, ← reached, ← hash]
        rfl
    · rw [restart]
      exact Or.inl ⟨i, s, rfl⟩

/-- Blocks were put together and imported: just they are dropped, and the last of them is the
start. -/
structure Collects (s t : BlockChainSync β) : Prop where
  headers : ∀ n, lookup t.headers n =
    if n ≤ s.syncStartBlock + s.joined.length then none else lookup s.headers n
  bodies : ∀ n, lookup t.bodies n =
    if n ≤ s.syncStartBlock + s.joined.length then none else lookup s.bodies n
  start : t.syncStartBlock = s.syncStartBlock + s.joined.length
  startHash : s.joined = [] ∧ t.syncStartBlockHash = s.syncStartBlockHash ∨
    ∃ h, lookup s.headers t.syncStartBlock = some h ∧ t.syncStartBlockHash = h.hash
  /-- No header or body up to the start is left. -/
  past : ∀ n ≤ t.syncStartBlock, lookup t.headers n = none ∧ lookup t.bodies n = none

/-- Every header that is stored is past the start. -/
def Above (s : BlockChainSync β) : Prop :=
  ∀ n, lookup s.headers n ≠ none → s.syncStartBlock < n

theorem Above.absent {n : ℕ} (above : s.Above) (past : n ≤ s.syncStartBlock) :
    lookup s.headers n = none := by
  by_contra present
  exact absurd (above n present) (not_lt.mpr past)

theorem Stored.head_above {rest : List (ℕ × List SyncHeader)} (stored : s.Stored) (above : s.Above)
    (splitHeaders : s.headers = (first, headers) :: rest) : s.syncStartBlock < first := by
  have apart := stored.headers
  rw [splitHeaders] at apart
  exact above first (splitHeaders ▸ apart.lookup_head)

theorem collects_none (stored : s.Stored) (above : s.Above) (none : s.joined = []) :
    Collects s s where
  headers := by
    intro n
    rw [none, List.length_nil, Nat.add_zero]
    split
    · exact above.absent ‹_›
    · rfl
  bodies := by
    intro n
    rw [none, List.length_nil, Nat.add_zero]
    split
    · exact stored.body_absent (above.absent ‹_›)
    · rfl
  start := by rw [none, List.length_nil, Nat.add_zero]
  startHash := Or.inl ⟨none, rfl⟩
  past := fun n past => ⟨above.absent past, stored.body_absent (above.absent past)⟩

theorem eq_succ_of_nextNumber {n k : ℕ} (next : k = nextNumber n) (greater : n < k) :
    k = n + 1 := by
  have := Nat.mod_le (n + 1) (2 ^ 32)
  unfold nextNumber at next
  omega

/-- The blocks that are put together are the headers and bodies of the numbers after the start. -/
theorem joined_lookup (stored : s.Stored) (above : s.Above) {k : ℕ} {block : SyncHeader × β}
    (found : s.joined[k]? = some block) :
    lookup s.headers (s.syncStartBlock + 1 + k) = some block.1 ∧
      lookup s.bodies (s.syncStartBlock + 1 + k) = some block.2 := by
  unfold joined at found
  split at found
  · rename_i first headers _ firstBody bodies _ splitHeaders splitBodies
    split at found
    · rename_i fits
      obtain ⟨rfl, next⟩ := fits
      have next := eq_succ_of_nextNumber next (stored.head_above above splitHeaders)
      obtain ⟨header, body⟩ := List.getElem?_zip_eq_some.mp found
      rw [splitHeaders, splitBodies, lookup, lookup, ← next, if_pos (Nat.le_add_right _ _),
        if_pos (Nat.le_add_right _ _), Nat.add_sub_cancel_left, header, body]
      exact ⟨rfl, rfl⟩
    · cases found
  · cases found

theorem lookup_last {bodies : List β} {rest : List (ℕ × List SyncHeader)} {last : SyncHeader × β}
    (found : (headers.zip bodies).getLast? = some last) :
    lookup ((first, headers) :: rest) (first + (headers.zip bodies).length - 1) = some last.1 := by
  rw [List.getLast?_eq_getElem?] at found
  have filled : 0 < (headers.zip bodies).length := by
    by_contra none
    rw [List.getElem?_eq_none (by omega)] at found
    cases found
  have header := (List.getElem?_zip_eq_some.mp found).1
  have index : first + (headers.zip bodies).length - 1 - first =
    (headers.zip bodies).length - 1 := by
    omega
  rw [lookup, if_pos (by omega), index, header, Option.some_or]

theorem collects_imported {bodies : List β}
    {otherHeaders : List (ℕ × List SyncHeader)} {otherBodies : List (ℕ × List β)}
    (stored : s.Stored) (next : first = s.syncStartBlock + 1)
    (splitHeaders : s.headers = (first, headers) :: otherHeaders)
    (splitBodies : s.bodies = (first, bodies) :: otherBodies)
    (joined : s.joined = headers.zip bodies)
    (leftHeaders : t.headers = dropFirst (headers.zip bodies).length first headers otherHeaders)
    (leftBodies : t.bodies = dropFirst (headers.zip bodies).length first bodies otherBodies)
    (start : t.syncStartBlock = s.syncStartBlock + (headers.zip bodies).length)
    (startHash : t.syncStartBlockHash = lastHash (headers.zip bodies) s.syncStartBlockHash) :
    Collects s t ∧ t.Stored := by
  -- Both containers lose the numbers up to the new start, and nothing else.
  have lengths : (headers.zip bodies).length = min headers.length bodies.length := List.length_zip
  have apartHeaders := stored.headers
  have apartBodies := stored.bodies
  rw [splitHeaders] at apartHeaders
  rw [splitBodies] at apartBodies
  have few : (headers.zip bodies).length ≤ headers.length := by omega
  have fewBodies : (headers.zip bodies).length ≤ bodies.length := by omega
  have lookupHeaders : ∀ n, lookup t.headers n =
      if n ≤ s.syncStartBlock + (headers.zip bodies).length then none else lookup s.headers n := by
    intro n
    rw [leftHeaders, lookup_dropFirst apartHeaders few, ← splitHeaders, next]
    congr 1
    simp only [eq_iff_iff]
    omega
  have lookupBodies : ∀ n, lookup t.bodies n =
      if n ≤ s.syncStartBlock + (headers.zip bodies).length then none else lookup s.bodies n := by
    intro n
    rw [leftBodies, lookup_dropFirst apartBodies fewBodies, ← splitBodies, next]
    congr 1
    simp only [eq_iff_iff]
    omega
  constructor
  · refine ⟨?_, ?_, ?_, ?_, ?_⟩
    · rwa [joined]
    · rwa [joined]
    · rwa [joined]
    · rw [joined, startHash]
      unfold lastHash
      cases found : (headers.zip bodies).getLast? with
      | none => exact Or.inl ⟨List.getLast?_eq_none_iff.mp found, rfl⟩
      | some last =>
        refine Or.inr ⟨last.1, ?_, rfl⟩
        have header : lookup s.headers (first + (headers.zip bodies).length - 1) = some last.1 := by
          rw [splitHeaders]
          exact lookup_last found
        have same : first + (headers.zip bodies).length - 1 = t.syncStartBlock := by omega
        rwa [same] at header
    · intro n past
      rw [start] at past
      rw [lookupHeaders, lookupBodies, if_pos past, if_pos past]
      exact ⟨rfl, rfl⟩
  · refine ⟨?_, ?_, ?_, ?_⟩
    · rw [leftHeaders]
      exact separated_dropFirst apartHeaders few
    · rw [leftBodies]
      exact separated_dropFirst apartBodies fewBodies
    · intro n h found
      rw [lookupHeaders] at found
      split at found
      · cases found
      · exact stored.numbered n h found
    · intro n
      rw [lookupHeaders, lookupBodies]
      split
      · exact fun absent => absurd rfl absent
      · exact stored.covered n

variable (host) in
theorem collectBlocks_cases (stored : s.Stored) (above : s.Above) (some : s.headers ≠ [])
    (bodies : s.bodies ≠ []) :
    (s.collectBlocks host).1 = .failure ∨ (s.collectBlocks host).1 = .success ∧
      Collects s (s.collectBlocks host).2 ∧ (s.collectBlocks host).2.Stored ∧
      (s.collectBlocks host).2.headerIdToNumber = s.headerIdToNumber := by
  obtain ⟨⟨first, headers⟩, otherHeaders, splitHeaders⟩ := List.exists_cons_of_ne_nil some
  obtain ⟨⟨firstBody, bodies⟩, otherBodies, splitBodies⟩ := List.exists_cons_of_ne_nil bodies
  unfold collectBlocks
  rw [splitHeaders, splitBodies]
  simp only
  split
  · rename_i misfit
    have none : s.joined = [] := by
      unfold joined
      rw [splitHeaders, splitBodies]
      simp only
      rw [if_neg (by tauto)]
    exact Or.inr ⟨rfl, collects_none stored above none, stored, rfl⟩
  · rename_i fits
    rw [not_or, not_not, not_not] at fits
    obtain ⟨rfl, next⟩ := fits
    have greater : s.syncStartBlock < first := stored.head_above above splitHeaders
    have joined : s.joined = headers.zip bodies := by
      unfold BlockChainSync.joined
      rw [splitHeaders, splitBodies]
      exact if_pos ⟨rfl, next⟩
    have next := eq_succ_of_nextNumber next greater
    obtain ⟨j, u, failed⟩ | done := importBlocks_cases host (i := 0) (headers.zip bodies) next
    · rw [failed]
      exact Or.inl rfl
    · rw [done]
      simp only [Nat.zero_add]
      split
      · exact Or.inl rfl
      · obtain ⟨collects, left⟩ := collects_imported stored next splitHeaders splitBodies joined
          (t := { s.setStart (s.syncStartBlock + (headers.zip bodies).length)
            (lastHash (headers.zip bodies) s.syncStartBlockHash) with
            headers := dropFirst (headers.zip bodies).length first headers otherHeaders
            bodies := dropFirst (headers.zip bodies).length first bodies otherBodies })
          rfl rfl rfl rfl
        exact Or.inr ⟨rfl, collects, left, rfl⟩

end Collect

section Runs

/-- Where the stored headers are: after the start, with the search just below the lowest. -/
structure Sited (s : BlockChainSync β) : Prop where
  stored : s.Stored
  above : s.Above
  searching : s.currState = .findingCommonBlock → s.headers ≠ [] →
    s.expectBlockHashForFindingCommon = 0 ∧ s.expectBlockForFindingCommon = s.syncStartBlock

theorem Clear.sited (clear : s.Clear) : s.Sited where
  stored := clear.stored
  above := by
    intro n
    simp [clear.headers, lookup]
  searching := fun _ some => absurd clear.headers some

theorem Sited.kept (sited : s.Sited) (kept : Kept s t) : t.Sited where
  stored := sited.stored.of_same kept.headers kept.bodies
  above := by
    unfold Above
    rw [kept.headers, kept.start]
    exact sited.above
  searching := by
    rw [kept.currState, kept.headers, kept.expectedHash, kept.expected, kept.start]
    exact sited.searching

theorem Sited.continues (sited : s.Sited) (continues : Continues s t) : t.Sited := by
  cases continues with
  | idled idled => exact idled.clear.sited
  | kept kept => exact sited.kept kept
  | noted needed missing kept =>
    refine Sited.kept ?_ kept
    exact ⟨sited.stored.of_same rfl rfl, sited.above, sited.searching⟩

variable {h : SyncHeader} {n : ℕ}

theorem Sited.expected (sited : s.Sited)
    (finding : s.currState = .findingCommonBlock) (some : s.headers ≠ [])
    (expected : s.isExpectBlockHeader h = true) : h.blockNumber = s.syncStartBlock := by
  obtain ⟨noHash, number⟩ := sited.searching finding some
  rw [isExpectBlockHeader, decide_eq_true_eq, noHash, number] at expected
  obtain byHash | byNumber := expected
  · exact absurd byHash.symm h.hash_ne_zero
  · exact byNumber.symm

theorem Stored.number_lt (stored : s.Stored) (present : lookup s.headers n ≠ none) :
    n < 2 ^ 32 := by
  obtain ⟨h, found⟩ := Option.ne_none_iff_exists'.mp present
  rw [← stored.numbered n h found]
  exact h.blockNumber_lt

theorem prevNumber_eq (positive : 0 < n) (less : n < 2 ^ 32) : prevNumber n = n - 1 := by
  unfold prevNumber
  omega

/-- The search goes on at its start, or right below the lowest header if that is lower. -/
theorem nextTryCommonBlock_cases (stored : s.Stored)
    (positive : ∀ n, lookup s.headers n ≠ none → 0 < n) :
    s.headers = [] ∧ s.nextTryCommonBlock = s.syncStartBlock ∨
      ∃ first, lookup s.headers first ≠ none ∧ (∀ n, lookup s.headers n ≠ none → first ≤ n) ∧
        s.nextTryCommonBlock = min s.syncStartBlock (first - 1) := by
  unfold nextTryCommonBlock
  split
  · rename_i first items rest split'
    have apart := stored.headers
    rw [split'] at apart
    have lowest : lookup s.headers first ≠ none := split' ▸ apart.lookup_head
    refine Or.inr ⟨first, lowest, fun n present => apart.head_le (split' ▸ present), ?_⟩
    rw [prevNumber_eq (positive first lowest) (stored.number_lt lowest)]
  · exact Or.inl ⟨‹_›, rfl⟩

theorem nextTryCommonBlock_lt (stored : s.Stored)
    (positive : ∀ n, lookup s.headers n ≠ none → 0 < n)
    (present : lookup s.headers n ≠ none) : s.nextTryCommonBlock < n := by
  obtain ⟨none, -⟩ | ⟨first, lowest, least, next⟩ := nextTryCommonBlock_cases stored positive
  · simp [none, lookup] at present
  · have := positive first lowest
    have := least n present
    omega

theorem nextTryCommonBlock_le : s.nextTryCommonBlock ≤ s.syncStartBlock := by
  unfold nextTryCommonBlock
  split
  · exact min_le_left _ _
  · exact le_rfl

theorem Sited.search (sited : s.Sited) (positive : 0 < h.blockNumber)
    (absent : lookup s.headers h.blockNumber = none) :
    ((s.storeHeader facts h).moveToNextCommonBlock host).Sited where
  stored := (sited.stored.storeHeader absent).of_same rfl rfl
  above := by
    intro n present
    refine nextTryCommonBlock_lt (sited.stored.storeHeader absent) ?_ present
    intro k present
    rw [lookup_storeHeader sited.stored absent, Function.update_apply] at present
    split at present
    · omega
    · exact Nat.zero_lt_of_lt (sited.above k present)
  searching := fun _ _ => ⟨rfl, rfl⟩

section

variable (stored : s.Stored) (above : s.Above)

include stored above

theorem Above.storeHeader (absent : lookup s.headers h.blockNumber = none)
    (past : s.syncStartBlock < h.blockNumber) : (s.storeHeader facts h).Above := by
  intro n present
  rw [lookup_storeHeader stored absent, Function.update_apply] at present
  rw [start_storeHeader]
  split at present
  · rename_i same
    rwa [same]
  · exact above n present

theorem Above.dropFollowing : (s.dropFollowing h).Above := by
  intro n present
  rw [(lookup_dropFollowing stored).1] at present
  simp only at present
  split at present
  · exact above n present
  · exact absurd rfl present

theorem Above.storeHeaders {items : List SyncHeader}
    (ended : s.storeHeaders facts items = (true, t)) : t.Above := by
  refine (storeHeaders_keeps (P := fun u => u.Stored ∧ u.Above) ?_ ?_ ⟨stored, above⟩ ended).2
  · intro u h _ held admits _
    have absent := held.1.absent_dropFollowing admits
    exact ⟨held.1.dropFollowing.storeHeader absent,
      (held.2.dropFollowing held.1).storeHeader held.1.dropFollowing absent admits.past⟩
  · intro u h _ held admits _
    have absent := held.1.absent admits
    exact ⟨held.1.storeHeader absent, held.2.storeHeader held.1 absent admits.past⟩

end

variable (facts) in
theorem Above.storeBodies (items : List (Option β)) (above : s.Above) :
    (s.storeBodies facts items).2.Above := by
  refine storeBodies_keeps (fun u body held => ?_) above
  obtain same | ⟨number, -, -, -, result⟩ := storeBody_cases facts u body
  · rwa [same]
  · rw [result]
    exact held

theorem collectBlocks_outside (none : s.bodies = []) : s.collectBlocks host = (.outside, s) := by
  unfold collectBlocks
  rw [none]
  split
  · rename_i split'
    cases split'
  · rfl

theorem Sited.of_downloading (stored : s.Stored) (above : s.Above)
    (downloading : s.currState = .syncBlocks) : s.Sited :=
  ⟨stored, above, fun finding => by simp [downloading] at finding⟩

theorem Sited.storeHeaders {peer : Peer} {items : List SyncHeader} (sited : s.Sited)
    (downloading : s.currState = .syncBlocks)
    (ended : (s.clearPeerDownload peer).storeHeaders facts items = (true, t)) :
    t.Sited ∧ t.currState = .syncBlocks := by
  have frame := reset_storeHeaders facts (s.clearPeerDownload peer) items
  rw [ended] at frame
  have stays : t.currState = .syncBlocks :=
    (congrArg (fun v => v.currState) frame).trans downloading
  have stored : (s.clearPeerDownload peer).Stored := sited.stored.of_same rfl rfl
  have above : (s.clearPeerDownload peer).Above := sited.above
  exact ⟨.of_downloading (stored.storeHeaders ended) (above.storeHeaders stored ended) stays, stays⟩

theorem Sited.storeBodies {peer : Peer} {items : List (Option β)} {read : Bool} (sited : s.Sited)
    (downloading : s.currState = .syncBlocks)
    (ended : (s.clearPeerDownload peer).storeBodies facts items = (read, t)) :
    t.Sited ∧ t.currState = .syncBlocks := by
  have frame := reset_storeBodies facts (s.clearPeerDownload peer) items
  have stored : (s.clearPeerDownload peer).Stored := sited.stored.of_same rfl rfl
  have above : (s.clearPeerDownload peer).Above := sited.above
  have storedAfter := stored.storeBodies facts items
  have aboveAfter := above.storeBodies facts items
  rw [ended] at frame storedAfter aboveAfter
  have stays : t.currState = .syncBlocks :=
    (congrArg (fun v => v.currState) frame).trans downloading
  exact ⟨.of_downloading storedAfter aboveAfter stays, stays⟩

theorem Sited.collectBlocks (sited : s.Sited) (downloading : s.currState = .syncBlocks)
    (some : s.headers ≠ []) (succeeded : (s.collectBlocks host).1 ≠ .failure) :
    (s.collectBlocks host).2.Sited := by
  by_cases none : s.bodies = []
  · rwa [collectBlocks_outside none]
  obtain failed | ⟨-, collects, left, -⟩ :=
    collectBlocks_cases host sited.stored sited.above some none
  · exact absurd failed succeeded
  · refine .of_downloading left (fun n present => ?_) ?_
    · by_contra past
      exact present (collects.past n (not_lt.mp past)).1
    · rw [currState_collectBlocks, downloading]

theorem Sited.outcome {event : Event β} (sited : s.Sited) (outcome : Outcome facts event s t) :
    t.Sited := by
  cases outcome with
  | clear clear idle => exact clear.sited
  | continues passed continues => exact sited.continues continues
  | searched host peer items received finding outcome =>
    cases outcome with
    | idled idled => exact idled.clear.sited
    | kept passed kept => exact sited.kept kept
    | stored h single expected high absent unknown kept =>
      refine Sited.kept (sited.search (by omega) ?_) kept
      exact (sited.stored.haveItem_header _).mp absent
    | found h single expected high absent common some continues =>
      refine Sited.continues ?_ continues
      refine ⟨sited.stored.of_same rfl rfl, fun n present => ?_, fun finding => by cases finding⟩
      change h.blockNumber < n
      rw [sited.expected finding some expected]
      exact sited.above n present
  | headers host peer items u received downloading ended some succeeded continues =>
    obtain ⟨after, stays⟩ := sited.storeHeaders downloading ended
    exact (after.collectBlocks stays some succeeded).continues continues
  | bodies host peer items read u received downloading ended result =>
    obtain ⟨after, stays⟩ := sited.storeBodies downloading ended
    obtain rfl | ⟨some, succeeded, continues⟩ := result
    · exact after
    · exact (after.collectBlocks stays some succeeded).continues continues

/-- What holds where nothing is downloaded, and is kept by every outcome of a fitting event, holds
after every run of fitting events. -/
theorem sited_run {P : BlockChainSync β → Prop} {fits : BlockChainSync β → Event β → Prop}
    {number lastIrrBlock : ℕ} {hash lastIrrBlockHash : Hash} {events : List (Event β)}
    (plain : ∀ {s event}, fits s event → event.plain = true) (clear : ∀ {s}, s.Clear → P s)
    (keeps : ∀ {s t event}, s.Sited → P s → fits s event → Outcome facts event s t → P t)
    (along : Runs.Along (step facts) fits events (start number hash lastIrrBlock lastIrrBlockHash))
    (ran : Runs.run (step facts) events (start number hash lastIrrBlock lastIrrBlockHash) =
      some t) :
    t.Sited ∧ P t := by
  refine (Runs.keeps (P := fun s => s.Orderly ∧ s.Sited ∧ P s) ?_
    ⟨orderly_start .., Clear.sited ⟨rfl, rfl, rfl⟩, clear ⟨rfl, rfl, rfl⟩⟩ along ran).2
  rintro event s t ⟨orderly, sited, held⟩ fitting taken
  obtain rfl := Option.some.inj taken
  have outcome := orderly.outcome facts (plain fitting)
  exact ⟨orderly.handle (plain fitting), sited.outcome outcome, keeps sited held fitting outcome⟩

end Runs

section Calls

/-- What storing the items of a packet gives, and the host it is done for. -/
def storing (facts : BodyFacts β) (s : BlockChainSync β) :
    Event β → Option (SyncHost β × Bool × BlockChainSync β)
  | .peerBlockHeaders host peer (some items) =>
    some (host, (s.clearPeerDownload peer).storeHeaders facts items)
  | .peerBlockBodies host peer items =>
    some (host, (s.clearPeerDownload peer).storeBodies facts items)
  | _ => none

/-- The host and the state with which blocks are put together while an event is handled. -/
def collecting (facts : BodyFacts β) (s : BlockChainSync β) (event : Event β) :
    Option (SyncHost β × BlockChainSync β) :=
  match s.storing facts event with
  | some (host, true, u) =>
    if s.currState = .syncBlocks ∧ (s.updateTimeout host).1 = false ∧
        u.checkSyncComplete = false then
      some (host, u)
    else none
  | _ => none

variable {event : Event β} {u : BlockChainSync β}

theorem collecting_eq_some (called : s.collecting facts event = some (host, u)) :
    s.storing facts event = some (host, true, u) ∧ s.currState = .syncBlocks ∧
      (s.updateTimeout host).1 = false ∧ u.headers ≠ [] := by
  unfold collecting at called
  split at called
  · split at called
    · rename_i stored entered
      obtain ⟨rfl, rfl⟩ := Prod.mk.inj (Option.some.inj called)
      refine ⟨stored, entered.1, entered.2.1, fun none => ?_⟩
      have complete := entered.2.2
      rw [checkSyncComplete, none] at complete
      cases complete
    · cases called
  · cases called

theorem updateTimeout_early (early : (s.updateTimeout host).1 = false) :
    s.updateTimeout host = (false, s) := by
  unfold updateTimeout at early ⊢
  split at early
  · cases early
  · exact if_neg ‹_›

theorem handle_collecting (called : s.collecting facts event = some (host, u)) :
    handle facts event s = u.finishPacket host := by
  obtain ⟨stored, downloading, early, -⟩ := collecting_eq_some called
  unfold storing at stored
  split at stored
  · obtain ⟨rfl, ended⟩ := Prod.mk.inj (Option.some.inj stored)
    change s.onPeerBlockHeaders facts _ _ _ = _
    unfold onPeerBlockHeaders
    rw [downloading, updateTimeout_early early]
    simp only
    unfold syncOnPeerBlockHeaders
    simp only
    rw [ended]
  · obtain ⟨rfl, ended⟩ := Prod.mk.inj (Option.some.inj stored)
    change s.onPeerBlockBodies facts _ _ _ = _
    unfold onPeerBlockBodies
    rw [downloading, updateTimeout_early early]
    simp only
    unfold syncOnPeerBlockBodies
    rw [ended]
  · cases stored

theorem Sited.collecting (sited : s.Sited) (called : s.collecting facts event = some (host, u)) :
    u.Sited := by
  obtain ⟨result, downloading, -⟩ := collecting_eq_some called
  unfold storing at result
  split at result
  · exact (sited.storeHeaders downloading (Prod.mk.inj (Option.some.inj result)).2).1
  · exact (sited.storeBodies downloading (Prod.mk.inj (Option.some.inj result)).2).1
  · cases result

/-- Where an event of a run puts blocks together, no chunk is read that is not there and just what
is
imported is dropped, if and only if some body is stored. -/
theorem collectBlocks_drops_imported {number lastIrrBlock : ℕ} {hash lastIrrBlockHash : Hash}
    {events : List (Event β)}
    (plain : Runs.Along (step facts) (fun _ event => event.plain = true) events
      (start number hash lastIrrBlock lastIrrBlockHash))
    (ran : Runs.run (step facts) events (start number hash lastIrrBlock lastIrrBlockHash) = some s)
    (called : s.collecting facts event = some (host, u)) :
    handle facts event s = u.finishPacket host ∧
      (((u.collectBlocks host).1 ≠ .outside ∧
        ((u.collectBlocks host).1 = .success → Collects u (u.collectBlocks host).2)) ↔
      u.bodies ≠ []) := by
  refine ⟨handle_collecting called, ?_⟩
  have sited := (sited_run (P := fun _ => True) id (fun _ => trivial) (fun _ _ _ _ => trivial)
    plain ran).1.collecting called
  have some := (collecting_eq_some called).2.2.2
  constructor
  · rintro ⟨inside, -⟩ none
    rw [collectBlocks_outside none] at inside
    exact inside rfl
  · intro bodies
    obtain failed | ⟨succeeded, collects, -⟩ :=
      collectBlocks_cases host sited.stored sited.above some bodies
    · rw [failed]
      exact ⟨by simp, fun other => by cases other⟩
    · rw [succeeded]
      exact ⟨by simp, fun _ => collects⟩

/-- The packet of some headers of the sample chain, which the first peer sends. -/
def sampleHeaders (headers : List (Fin 2 × Fin 10)) : Event ℕ :=
  .peerBlockHeaders sampleSyncHost 1 (some (headers.map fun h => sampleHeader h.1 h.2))

/-- A peer that is ahead sends its latest header and then that of the common block. -/
def sampleSearch : List (Event ℕ) :=
  [.peerStatus sampleSyncHost samplePeer, sampleHeaders [(0, 8)], sampleHeaders [(0, 5)]]

/-- The packet of a body, which the first peer sends. -/
def sampleBody (body : ℕ) : Event ℕ := .peerBlockBodies sampleSyncHost 1 [some body]

/-- The body of the latest header comes, then the next header. -/
def sampleDownload : List (Event ℕ) := sampleSearch ++ [sampleBody 8, sampleHeaders [(0, 6)]]

/-- The body of the next header comes, and the block is imported. -/
theorem collectBlocks_drops_imported_next : ∃ s host u, sampleSync sampleDownload = some s ∧
    s.collecting sampleBodies (sampleBody 6) = some (host, u) ∧
    (u.collectBlocks host).2.syncStartBlock = 6 ∧ Collects u (u.collectBlocks host).2 := by
  obtain ⟨s, ran⟩ := Option.isSome_iff_exists.mp
    (show (sampleSync sampleDownload).isSome = true from rfl)
  have calls : ((sampleSync sampleDownload).bind fun s =>
      (s.collecting sampleBodies (sampleBody 6)).map fun c =>
        ((c.2.collectBlocks c.1).1, (c.2.collectBlocks c.1).2.syncStartBlock, c.2.bodies)) =
      some (.success, 6, [(6, [6]), (8, [8])]) := by decide +kernel
  rw [ran, Option.bind_some, Option.map_eq_some_iff] at calls
  obtain ⟨⟨host, u⟩, called, results⟩ := calls
  obtain ⟨succeeded, reached, bodies⟩ : _ ∧ _ ∧ _ := by simpa using results
  refine ⟨s, host, u, ran, called, reached, ?_⟩
  exact ((collectBlocks_drops_imported (by decide +kernel) ran called).2.mpr (by simp [bodies])).2
    succeeded

/-- The header after the common block comes before any body, and a body is read where there is
none. -/
theorem collectBlocks_reads_outside :
    ((sampleSync sampleSearch).bind fun s =>
      (s.collecting sampleBodies (sampleHeaders [(0, 6)])).map fun c =>
        (c.2.collectBlocks c.1).1) = some .outside := by
  decide +kernel

end Calls

end BlockChainSync

end Etiam
