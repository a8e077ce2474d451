import Etiam.Sync.Collect

/-! Every stored body belongs to the header with its number, in runs where nothing is dropped. -/

namespace Etiam

namespace BlockChainSync

open Chunks

variable {β : Type} {facts : BodyFacts β} {host : SyncHost β} {s t u : BlockChainSync β}

/-- Bodies are stored with their headers, and identifiers lead to headers without a body. -/
structure Matched (facts : BodyFacts β) (s : BlockChainSync β) : Prop where
  bodies : ∀ n body, lookup s.bodies n = some body →
    ∃ h, lookup s.headers n = some h ∧ facts.id body = h.id
  ids : ∀ id n, s.headerIdToNumber id = some n → ∃ h, lookup s.headers n = some h ∧ h.id = id
  missing : ∀ id n, s.headerIdToNumber id = some n → lookup s.bodies n = none

theorem Clear.matched (clear : s.Clear) : s.Matched facts where
  bodies := by simp [clear.bodies, lookup]
  ids := by simp [clear.ids]
  missing := by simp [clear.bodies, lookup]

section

variable (matched : s.Matched facts)

include matched

theorem Matched.of_same (headers : t.headers = s.headers) (bodies : t.bodies = s.bodies)
    (ids : t.headerIdToNumber = s.headerIdToNumber) : t.Matched facts := by
  constructor
  · rw [headers, bodies]
    exact matched.bodies
  · rw [headers, ids]
    exact matched.ids
  · rw [ids, bodies]
    exact matched.missing

theorem Matched.storeHeader {h : SyncHeader} (stored : s.Stored)
    (absent : lookup s.headers h.blockNumber = none) : (s.storeHeader facts h).Matched facts := by
  -- What was stored before is at other numbers than the new header.
  have kept : ∀ n g, lookup s.headers n = some g →
      lookup (s.storeHeader facts h).headers n = some g := by
    intro n g found
    rw [lookup_storeHeader stored absent, Function.update_of_ne, found]
    rintro rfl
    rw [absent] at found
    cases found
  have added : lookup (s.storeHeader facts h).headers h.blockNumber = some h := by
    rw [lookup_storeHeader stored absent, Function.update_self]
  have noBody := stored.body_absent absent
  by_cases empty : h.id = facts.id facts.emptyBody
  · have ids : (s.storeHeader facts h).headerIdToNumber = s.headerIdToNumber := by
      unfold BlockChainSync.storeHeader
      rw [if_pos empty]
    refine ⟨?_, ?_, ?_⟩
    · intro n body found
      rw [lookup_storeHeader_body stored absent, if_pos empty, Function.update_apply] at found
      split at found
      · rename_i same
        exact ⟨h, same ▸ added, by rw [← Option.some.inj found, empty]⟩
      · obtain ⟨g, header, same⟩ := matched.bodies n body found
        exact ⟨g, kept n g header, same⟩
    · intro id n entry
      rw [ids] at entry
      obtain ⟨g, header, same⟩ := matched.ids id n entry
      exact ⟨g, kept n g header, same⟩
    · intro id n entry
      rw [ids] at entry
      obtain ⟨g, header, -⟩ := matched.ids id n entry
      rw [lookup_storeHeader_body stored absent, if_pos empty, Function.update_of_ne]
      · exact matched.missing id n entry
      · rintro rfl
        rw [absent] at header
        cases header
  · have ids : (s.storeHeader facts h).headerIdToNumber =
        Function.update s.headerIdToNumber h.id (some h.blockNumber) := by
      unfold BlockChainSync.storeHeader
      rw [if_neg empty]
    refine ⟨?_, ?_, ?_⟩
    · intro n body found
      rw [lookup_storeHeader_body stored absent, if_neg empty] at found
      obtain ⟨g, header, same⟩ := matched.bodies n body found
      exact ⟨g, kept n g header, same⟩
    · intro id n entry
      rw [ids, Function.update_apply] at entry
      split at entry
      · rename_i same
        exact ⟨h, Option.some.inj entry ▸ added, same.symm⟩
      · obtain ⟨g, header, same⟩ := matched.ids id n entry
        exact ⟨g, kept n g header, same⟩
    · intro id n entry
      rw [lookup_storeHeader_body stored absent, if_neg empty]
      rw [ids, Function.update_apply] at entry
      split at entry
      · exact Option.some.inj entry ▸ noBody
      · exact matched.missing id n entry

theorem Matched.storeBody {body : β} (stored : s.Stored) :
    (s.storeBody facts body).Matched facts := by
  obtain same | ⟨number, entry, -, absent, result⟩ := storeBody_cases facts s body
  · rwa [same]
  rw [result]
  have merged := Sync.mergeInto_spec stored.bodies ((stored.haveItem_body number).mp absent) body
  obtain ⟨h, header, identified⟩ := matched.ids _ number entry
  refine ⟨?_, ?_, ?_⟩
  · intro n other found
    rw [merged.1, Function.update_apply] at found
    split at found
    · rename_i same
      exact ⟨h, same ▸ header, by rw [← Option.some.inj found, identified]⟩
    · exact matched.bodies n other found
  · intro id n found
    simp only [Function.update_apply] at found
    split at found
    · cases found
    · exact matched.ids id n found
  · intro id n found
    simp only [Function.update_apply] at found
    split at found
    · cases found
    · rename_i other
      rw [merged.1, Function.update_of_ne]
      · exact matched.missing id n found
      · -- Another entry for this number would have the identifier of the same header.
        rintro rfl
        obtain ⟨g, sameHeader, same⟩ := matched.ids id n found
        rw [header] at sameHeader
        rw [← same, ← Option.some.inj sameHeader, identified] at other
        exact other rfl

theorem Matched.noted {needed : List (SyncHeader × ℕ)} (stored : s.Stored)
    (missing : s.Missing needed) : Matched facts
      { s with headerIdToNumber := needed.foldl noteNeeded s.headerIdToNumber } := by
  -- The entries are those from before and those of needed headers.
  have entries : ∀ id n, needed.foldl noteNeeded s.headerIdToNumber id = some n →
      s.headerIdToNumber id = some n ∨ ∃ p ∈ needed, p.1.id = id ∧ p.2 = n := by
    intro id n
    generalize s.headerIdToNumber = ids
    induction needed generalizing ids with
    | nil => exact Or.inl
    | cons p rest ih =>
      intro entry
      obtain before | ⟨q, member, found⟩ :=
        ih (fun q member => missing q (List.mem_cons_of_mem p member)) (noteNeeded ids p) entry
      · unfold noteNeeded at before
        split at before
        · rw [Function.update_apply] at before
          split at before
          · rename_i same
            exact Or.inr ⟨p, List.mem_cons_self, same.symm, Option.some.inj before⟩
          · exact Or.inl before
        · exact Or.inl before
      · exact Or.inr ⟨q, List.mem_cons_of_mem p member, found⟩
  refine ⟨matched.bodies, ?_, ?_⟩
  · intro id n entry
    obtain before | ⟨p, member, rfl, rfl⟩ := entries id n entry
    · exact matched.ids id n before
    · exact ⟨p.1, (missing p member).1, rfl⟩
  · intro id n entry
    obtain before | ⟨p, member, rfl, rfl⟩ := entries id n entry
    · exact matched.missing id n before
    · exact (stored.haveItem_body _).mp (missing p member).2

theorem Matched.kept (kept : Kept s t) : t.Matched facts :=
  matched.of_same kept.headers kept.bodies kept.ids

theorem Matched.continues (stored : s.Stored) (continues : Continues s t) : t.Matched facts := by
  cases continues with
  | idled idled => exact idled.clear.matched
  | kept kept => exact matched.kept kept
  | noted needed missing kept => exact (matched.noted stored missing).kept kept

/-- Only headers with bodies are dropped with the blocks that are put together, so no entry leads to
one of them. -/
theorem Matched.collectBlocks (stored : s.Stored) (above : s.Above) (some : s.headers ≠ [])
    (succeeded : (s.collectBlocks host).1 ≠ .failure) : (s.collectBlocks host).2.Matched facts := by
  by_cases none : s.bodies = []
  · rwa [collectBlocks_outside none]
  obtain failed | ⟨-, collects, -, ids⟩ := collectBlocks_cases host stored above some none
  · exact absurd failed succeeded
  -- A number with an entry has a header, so it is past the start, and no body, so it is past the
  -- blocks.
  have later : ∀ id n, s.headerIdToNumber id = .some n →
      ¬ n ≤ s.syncStartBlock + s.joined.length := by
    intro id n entry early
    obtain ⟨h, header, -⟩ := matched.ids id n entry
    have past := above n (by simp [header])
    have inside : n - (s.syncStartBlock + 1) < s.joined.length := by omega
    have body := (joined_lookup stored above (List.getElem?_eq_getElem inside)).2
    rw [show s.syncStartBlock + 1 + (n - (s.syncStartBlock + 1)) = n by omega,
      matched.missing id n entry] at body
    cases body
  refine ⟨?_, ?_, ?_⟩
  · intro n body found
    rw [collects.bodies] at found
    split at found
    · cases found
    · rename_i after
      rw [collects.headers, if_neg after]
      exact matched.bodies n body found
  · intro id n entry
    rw [ids] at entry
    rw [collects.headers, if_neg (later id n entry)]
    exact matched.ids id n entry
  · intro id n entry
    rw [ids] at entry
    rw [collects.bodies, if_neg (later id n entry)]
    exact matched.missing id n entry

end

section Packets

/-- The headers that are stored, or come in the same packet, with the number after a header. -/
def followers (s : BlockChainSync β) (items : List SyncHeader) (h : SyncHeader) :
    List SyncHeader :=
  (Sync.findItem s.headers (nextNumber h.blockNumber)).toList ++
    items.filter (·.blockNumber = nextNumber h.blockNumber)

/-- While blocks are downloaded, no packet has a header before one that has another parent. -/
def Fitting (s : BlockChainSync β) : Event β → Prop
  | .peerBlockHeaders _ _ (some items) =>
    s.currState = .syncBlocks → ∀ h ∈ items, ∀ g ∈ s.followers items h, g.parentHash = h.hash
  | _ => True

instance (s : BlockChainSync β) (event : Event β) : Decidable (s.Fitting event) := by
  unfold Fitting
  split <;> infer_instance

variable {items : List SyncHeader}

/-- With a packet that fits, nothing is dropped, and each header is stored as a new one. -/
theorem storeHeaders_fitting {P : BlockChainSync β → Prop} (stored : s.Stored)
    (fitting : ∀ h ∈ items, ∀ g ∈ s.followers items h, g.parentHash = h.hash)
    (step : ∀ u h, P u → u.Stored → lookup u.headers h.blockNumber = none → u.Admits h →
      u.FitsNext h → P (u.storeHeader facts h))
    (held : P s) (ended : s.storeHeaders facts items = (true, t)) : P t := by
  -- All headers on the way are from before or from the packet.
  let Known (u : BlockChainSync β) : Prop :=
    ∀ n g, lookup u.headers n = some g → lookup s.headers n = some g ∨ g ∈ items
  have fits : ∀ u, ∀ h ∈ items, u.Stored → Known u → u.FitsNext h := by
    intro u h member storedThere known g found
    rw [storedThere.findItem] at found
    refine fitting h member g (List.mem_append.mpr ?_)
    obtain before | inside := known _ g found
    · left
      rw [stored.findItem, before]
      exact List.mem_singleton_self g
    · exact Or.inr (List.mem_filter.mpr ⟨inside, by simp [storedThere.numbered _ g found]⟩)
  refine (storeHeaders_keeps (P := fun u => P u ∧ u.Stored ∧ Known u) ?_ ?_
    ⟨held, stored, fun n g found => Or.inl found⟩ ended).1
  · intro u h member holds _ misfit
    exact absurd (fits u h member holds.2.1 holds.2.2) misfit
  · rintro u h member ⟨holds, storedThere, known⟩ admits fitsNext
    have absent := storedThere.absent admits
    refine ⟨step u h holds storedThere absent admits fitsNext, storedThere.storeHeader absent, ?_⟩
    intro n g found
    rw [lookup_storeHeader storedThere absent, Function.update_apply] at found
    split at found
    · exact Or.inr (Option.some.inj found ▸ member)
    · exact known n g found

theorem Matched.storeHeaders {peer : Peer} (matched : s.Matched facts) (stored : s.Stored)
    (fitting : ∀ h ∈ items, ∀ g ∈ s.followers items h, g.parentHash = h.hash)
    (ended : (s.clearPeerDownload peer).storeHeaders facts items = (true, t)) :
    t.Matched facts := by
  have before : (s.clearPeerDownload peer).Matched facts := matched.of_same rfl rfl rfl
  have stored : (s.clearPeerDownload peer).Stored := stored.of_same rfl rfl
  refine storeHeaders_fitting stored fitting
    (fun u h held storedThere absent _ _ => ?_) before ended
  exact held.storeHeader storedThere absent

theorem Matched.storeBodies (peer : Peer) (bodies : List (Option β)) (matched : s.Matched facts)
    (stored : s.Stored) :
    ((s.clearPeerDownload peer).storeBodies facts bodies).2.Matched facts := by
  have before : (s.clearPeerDownload peer).Matched facts := matched.of_same rfl rfl rfl
  have stored : (s.clearPeerDownload peer).Stored := stored.of_same rfl rfl
  exact (storeBodies_keeps (P := fun u => u.Matched facts ∧ u.Stored)
    (fun _ _ held => ⟨held.1.storeBody held.2, held.2.storeBody⟩) ⟨before, stored⟩).1

theorem Matched.outcome {event : Event β} (matched : s.Matched facts) (sited : s.Sited)
    (fitting : s.Fitting event) (outcome : Outcome facts event s t) : t.Matched facts := by
  cases outcome with
  | clear clear idle => exact clear.matched
  | continues passed continues => exact matched.continues sited.stored continues
  | searched host peer items received finding outcome =>
    cases outcome with
    | idled idled => exact idled.clear.matched
    | kept passed kept => exact matched.kept kept
    | stored h single expected high absent unknown kept =>
      have absent := (sited.stored.haveItem_header _).mp absent
      refine Matched.kept ?_ kept
      exact (matched.storeHeader sited.stored absent).of_same rfl rfl rfl
    | found h single expected high absent common some continues =>
      refine Matched.continues ?_ (sited.stored.of_same ?_ ?_) continues
      · exact matched.of_same rfl rfl rfl
      · rfl
      · rfl
  | headers host peer items u received downloading ended some succeeded continues =>
    subst received
    obtain ⟨after, stays⟩ := sited.storeHeaders downloading ended
    have kept := matched.storeHeaders sited.stored (fitting downloading) ended
    exact (kept.collectBlocks after.stored after.above some succeeded).continues
      (after.collectBlocks stays some succeeded).stored continues
  | bodies host peer items read u received downloading ended result =>
    obtain ⟨after, stays⟩ := sited.storeBodies downloading ended
    have kept := matched.storeBodies peer items sited.stored
    rw [ended] at kept
    obtain rfl | ⟨some, succeeded, continues⟩ := result
    · exact kept
    · exact (kept.collectBlocks after.stored after.above some succeeded).continues
        (after.collectBlocks stays some succeeded).stored continues

theorem Matched.joined (matched : s.Matched facts) (sited : s.Sited) :
    ∀ block ∈ s.joined, facts.id block.2 = block.1.id := by
  intro block member
  obtain ⟨k, found⟩ := List.getElem?_of_mem member
  obtain ⟨header, body⟩ := joined_lookup sited.stored sited.above found
  obtain ⟨h, same, identified⟩ := matched.bodies _ _ body
  rw [header] at same
  rw [identified, ← Option.some.inj same]

theorem Matched.collecting {event : Event β} (matched : s.Matched facts) (sited : s.Sited)
    (fitting : s.Fitting event) (called : s.collecting facts event = some (host, u)) :
    u.Matched facts := by
  obtain ⟨result, downloading, -⟩ := collecting_eq_some called
  unfold storing at result
  split at result
  · exact matched.storeHeaders sited.stored (fitting downloading)
      (Prod.mk.inj (Option.some.inj result)).2
  · rename_i peer items
    have kept := matched.storeBodies peer items sited.stored
    rwa [(Prod.mk.inj (Option.some.inj result)).2] at kept
  · cases result

/-- In every run in which no packet makes headers drop that follow, every body is that of the header
with its number, every identifier leads to its header, and no header is put together with the body
of another block. -/
theorem bodies_match_headers {number lastIrrBlock : ℕ} {hash lastIrrBlockHash : Hash}
    {events : List (Event β)}
    (fits : Runs.Along (step facts) (fun s event => event.plain = true ∧ s.Fitting event) events
      (start number hash lastIrrBlock lastIrrBlockHash))
    (ran : Runs.run (step facts) events (start number hash lastIrrBlock lastIrrBlockHash) =
      some t) :
    (∀ n body, lookup t.bodies n = some body →
      ∃ h, lookup t.headers n = some h ∧ facts.id body = h.id) ∧
    (∀ id n, t.headerIdToNumber id = some n → ∃ h, lookup t.headers n = some h ∧ h.id = id) ∧
    ∀ event host u, t.Fitting event → t.collecting facts event = some (host, u) →
      ∀ block ∈ u.joined, facts.id block.2 = block.1.id := by
  obtain ⟨sited, matched⟩ := sited_run And.left Clear.matched
    (fun sited matched fits outcome => Matched.outcome matched sited fits.2 outcome) fits ran
  exact ⟨matched.bodies, matched.ids, fun event host u fitting called =>
    (matched.collecting sited fitting called).joined (sited.collecting called)⟩

/-- The body of the header with which the search began comes. -/
theorem bodies_match_headers_latest : ∃ s, sampleSync (sampleSearch ++ [sampleBody 8]) = some s ∧
    lookup s.bodies 8 = some 8 ∧ ∃ h, lookup s.headers 8 = some h ∧ sampleBodies.id 8 = h.id := by
  obtain ⟨s, ran⟩ := Option.isSome_iff_exists.mp
    (show (sampleSync (sampleSearch ++ [sampleBody 8])).isSome = true from rfl)
  have stored : (sampleSync (sampleSearch ++ [sampleBody 8])).map (fun s => lookup s.bodies 8) =
      some (some 8) := by decide +kernel
  rw [ran] at stored
  have body := Option.some.inj stored
  exact ⟨s, ran, body, (bodies_match_headers (by decide +kernel) ran).1 8 8 body⟩

/-- The search finds the ninth header of one branch; then come the seventh, with an empty body, and
the eighth of the other branch. -/
def sampleBranches : List (Event ℕ) :=
  [.peerStatus sampleSyncHost { samplePeer with latestHash := 109 },
    sampleHeaders [(0, 9)], sampleHeaders [(0, 5)],
    .peerBlockHeaders sampleSyncHost 1 (some [{ sampleHeader 1 7 with transactionsRoot := 0 }]),
    sampleHeaders [(1, 8)]]

/-- When the eighth header makes the ninth drop, the identifier of that still leads there; the ninth
header of the other branch then gets its body and is put together with it. -/
theorem bodies_mismatch_headers :
    (sampleSync sampleBranches).map (fun s => (s.headerIdToNumber ⟨9, 0⟩, lookup s.headers 9)) =
      some (some 9, none) ∧
    ((sampleSync (sampleBranches ++
        [sampleHeaders [(1, 9)], sampleBody 9, sampleHeaders [(1, 6)]])).bind fun s =>
      (s.collecting sampleBodies (.peerBlockBodies sampleSyncHost 1 [some 16, some 18])).map
        fun c => c.2.joined.map fun block => (block.1.id, sampleBodies.id block.2)) =
      some [(⟨16, 0⟩, ⟨16, 0⟩), (⟨0, 0⟩, ⟨0, 0⟩), (⟨18, 0⟩, ⟨18, 0⟩), (⟨19, 0⟩, ⟨9, 0⟩)] := by
  decide +kernel

end Packets

end BlockChainSync

end Etiam
