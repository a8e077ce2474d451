import Etiam.Sync.Collect

/-! The stored headers form chains, in runs where the search only accepts headers that fit. -/

namespace Etiam

namespace BlockChainSync

open Chunks

variable {β : Type} {facts : BodyFacts β} {host : SyncHost β} {s t : BlockChainSync β}

/-- Each stored header is the parent of the next one, and the start that of the first. -/
structure Linked (s : BlockChainSync β) : Prop where
  links : ∀ n g h, lookup s.headers n = some g → lookup s.headers (n + 1) = some h →
    h.parentHash = g.hash
  attached : s.currState = .syncBlocks → ∀ h, lookup s.headers (s.syncStartBlock + 1) = some h →
    h.parentHash = s.syncStartBlockHash

theorem Clear.linked (clear : s.Clear) : s.Linked := by
  -- No header is stored.
  constructor <;> simp [clear.headers, lookup]

theorem Linked.kept (linked : s.Linked) (kept : Kept s t) : t.Linked := by
  constructor
  · rw [kept.headers]
    exact linked.links
  · rw [kept.headers, kept.currState, kept.start, kept.startHash]
    exact linked.attached

theorem Linked.continues (linked : s.Linked) (continues : Continues s t) : t.Linked := by
  cases continues with
  | idled idled => exact idled.clear.linked
  | kept kept => exact linked.kept kept
  | noted needed missing kept =>
    refine Linked.kept ?_ kept
    exact ⟨linked.links, linked.attached⟩

theorem Stored.nextNumber_eq {n : ℕ} (stored : s.Stored)
    (present : lookup s.headers (n + 1) ≠ none) :
    nextNumber n = n + 1 :=
  -- Stored numbers are in the range of the machine type.
  Nat.mod_eq_of_lt (stored.number_lt present)

theorem links_storeHeader {h : SyncHeader} (stored : s.Stored)
    (absent : lookup s.headers h.blockNumber = none)
    (links : ∀ n f g, lookup s.headers n = some f → lookup s.headers (n + 1) = some g →
      g.parentHash = f.hash)
    (previous : ∀ n g, h.blockNumber = n + 1 → lookup s.headers n = some g → g.hash = h.parentHash)
    (next : ∀ g, lookup s.headers (h.blockNumber + 1) = some g → g.parentHash = h.hash) :
    ∀ n f g, lookup (s.storeHeader facts h).headers n = some f →
      lookup (s.storeHeader facts h).headers (n + 1) = some g → g.parentHash = f.hash := by
  -- Only the pairs with the new header are new.
  intro n f g first second
  rw [lookup_storeHeader stored absent, Function.update_apply] at first second
  split at first
  · rename_i same
    rw [if_neg (by omega), same] at second
    rw [← Option.some.inj first]
    exact next g second
  · split at second
    · rename_i same
      rw [← Option.some.inj second]
      exact (previous n f same.symm first).symm
    · exact links n f g first second

theorem Linked.storeHeader {h : SyncHeader} (linked : s.Linked) (stored : s.Stored)
    (absent : lookup s.headers h.blockNumber = none)
    (previous : ∀ n g, h.blockNumber = n + 1 → lookup s.headers n = some g → g.hash = h.parentHash)
    (first : h.blockNumber = s.syncStartBlock + 1 → h.parentHash = s.syncStartBlockHash)
    (next : ∀ g, lookup s.headers (h.blockNumber + 1) = some g → g.parentHash = h.hash) :
    (s.storeHeader facts h).Linked where
  links := links_storeHeader stored absent linked.links previous next
  attached := by
    intro downloading g found
    rw [currState_storeHeader] at downloading
    rw [lookup_storeHeader stored absent, start_storeHeader, Function.update_apply] at found
    rw [startHash_storeHeader]
    split at found
    · rename_i same
      rw [← Option.some.inj found]
      exact first same.symm
    · exact linked.attached downloading g found

theorem Linked.dropFollowing {h : SyncHeader} (linked : s.Linked) (stored : s.Stored) :
    (s.dropFollowing h).Linked := by
  -- What is left was there before.
  have before : ∀ n g, lookup (s.dropFollowing h).headers n = some g →
      lookup s.headers n = some g := by
    intro n g found
    rw [(lookup_dropFollowing stored).1] at found
    simp only at found
    split at found
    · exact found
    · cases found
  constructor
  · intro n f g first second
    exact linked.links n f g (before n f first) (before (n + 1) g second)
  · intro downloading g found
    exact linked.attached downloading g (before _ g found)

section Admits

variable {h : SyncHeader}

theorem Admits.fits_previous (admits : s.Admits h) (stored : s.Stored) (n : ℕ) (g : SyncHeader)
    (number : h.blockNumber = n + 1) (found : lookup s.headers n = some g) :
    g.hash = h.parentHash := by
  have less := h.blockNumber_lt
  refine admits.previous g ?_
  rwa [number, prevNumber_eq (by omega) (by omega), Nat.add_sub_cancel, stored.findItem]

theorem Admits.fits_start (admits : s.Admits h) (number : h.blockNumber = s.syncStartBlock + 1) :
    h.parentHash = s.syncStartBlockHash := by
  have less := h.blockNumber_lt
  refine admits.start ?_
  rw [nextNumber, Nat.mod_eq_of_lt (by omega), number]

theorem FitsNext.next (fits : s.FitsNext h) (stored : s.Stored) (g : SyncHeader)
    (found : lookup s.headers (h.blockNumber + 1) = some g) : g.parentHash = h.hash := by
  refine fits g ?_
  rwa [stored.nextNumber_eq (by simp [found]), stored.findItem]

end Admits

theorem Linked.storeHeaders {items : List SyncHeader} (linked : s.Linked) (stored : s.Stored)
    (ended : s.storeHeaders facts items = (true, t)) : t.Linked := by
  refine (storeHeaders_keeps (P := fun u => u.Stored ∧ u.Linked) ?_ ?_ ⟨stored, linked⟩ ended).2
  · rintro u h _ ⟨stored, linked⟩ admits _
    have absent := stored.absent_dropFollowing admits
    refine ⟨stored.dropFollowing.storeHeader absent, ?_⟩
    refine (linked.dropFollowing stored).storeHeader stored.dropFollowing absent ?_
      admits.fits_start ?_
    · intro n g number found
      rw [(lookup_dropFollowing stored).1] at found
      simp only at found
      split at found
      · exact admits.fits_previous stored n g number found
      · cases found
    · -- All that followed is dropped.
      intro g found
      rw [(lookup_dropFollowing stored).1] at found
      simp only at found
      have := Nat.mod_le (h.blockNumber + 1) (2 ^ 32)
      rw [if_neg (by rw [nextNumber]; omega)] at found
      cases found
  · rintro u h _ ⟨stored, linked⟩ admits fits
    have absent := stored.absent admits
    exact ⟨stored.storeHeader absent, linked.storeHeader stored absent
      (admits.fits_previous stored) admits.fits_start (fits.next stored)⟩

/-- The last block that is put together is the parent of the first header that is left. -/
theorem Linked.collectBlocks (linked : s.Linked) (sited : s.Sited)
    (downloading : s.currState = .syncBlocks) (some : s.headers ≠ [])
    (succeeded : (s.collectBlocks host).1 ≠ .failure) : (s.collectBlocks host).2.Linked := by
  by_cases none : s.bodies = []
  · rwa [collectBlocks_outside none]
  obtain failed | ⟨-, collects, -⟩ := collectBlocks_cases host sited.stored sited.above some none
  · exact absurd failed succeeded
  have before : ∀ n g, lookup (s.collectBlocks host).2.headers n = .some g →
      lookup s.headers n = .some g := by
    intro n g found
    rw [collects.headers] at found
    split at found
    · cases found
    · exact found
  constructor
  · intro n f g first second
    exact linked.links n f g (before n f first) (before (n + 1) g second)
  · intro _ g found
    have found := before _ g found
    obtain ⟨nothing, same⟩ | ⟨last, header, hash⟩ := collects.startHash
    · rw [collects.start, nothing, List.length_nil, Nat.add_zero] at found
      rw [same]
      exact linked.attached downloading g found
    · rw [hash]
      exact linked.links _ last g header found

theorem Linked.storeBodies (items : List (Option β)) (linked : s.Linked) :
    (s.storeBodies facts items).2.Linked := by
  -- No header is changed by a body.
  refine storeBodies_keeps (fun u body held => ?_) linked
  obtain same | ⟨number, -, -, -, result⟩ := storeBody_cases facts u body
  · rwa [same]
  · rw [result]
    exact ⟨held.links, held.attached⟩

section Search

instance (s : BlockChainSync β) (h : SyncHeader) : Decidable (s.FitsNext h) :=
  inferInstanceAs (Decidable (∀ g ∈ Sync.findItem s.headers (nextNumber h.blockNumber),
    g.parentHash = h.hash))

/-- While a common block is looked for, a header is only accepted before one whose parent it is. -/
def Linking (s : BlockChainSync β) : Event β → Prop
  | .peerBlockHeaders _ _ (some [h]) =>
    s.currState = .findingCommonBlock → s.isExpectBlockHeader h = true → s.FitsNext h
  | _ => True

/-- The header of a packet that has only one. -/
def Event.onlyHeader : Event β → Option SyncHeader
  | .peerBlockHeaders _ _ (some [h]) => some h
  | _ => none

theorem linking_iff {event : Event β} : s.Linking event ↔ ∀ h ∈ event.onlyHeader,
    s.currState = .findingCommonBlock → s.isExpectBlockHeader h = true → s.FitsNext h := by
  unfold Linking Event.onlyHeader
  split
  · simp
  · simp

instance (s : BlockChainSync β) (event : Event β) : Decidable (s.Linking event) :=
  decidable_of_iff _ linking_iff.symm

theorem Sited.no_previous {h : SyncHeader} (sited : s.Sited)
    (finding : s.currState = .findingCommonBlock) (expected : s.isExpectBlockHeader h = true)
    {n : ℕ} (number : h.blockNumber = n + 1) : lookup s.headers n = none := by
  by_cases none : s.headers = []
  · rw [none]
    rfl
  · have same := sited.expected finding none expected
    exact sited.above.absent (by omega)

theorem Linked.outcome {event : Event β} (linked : s.Linked) (sited : s.Sited)
    (linking : s.Linking event) (outcome : Outcome facts event s t) : t.Linked := by
  cases outcome with
  | clear clear idle => exact clear.linked
  | continues passed continues => exact linked.continues continues
  | searched host peer items received finding outcome =>
    subst received
    cases outcome with
    | idled idled => exact idled.clear.linked
    | kept passed kept => exact linked.kept kept
    | stored h single expected high absent unknown kept =>
      subst single
      have absent := (sited.stored.haveItem_header _).mp absent
      have next := (linking finding expected).next sited.stored
      refine Linked.kept ?_ kept
      refine ⟨links_storeHeader sited.stored absent linked.links ?_ next, fun downloading => ?_⟩
      · intro n g number found
        rw [sited.no_previous finding expected number] at found
        cases found
      · change (s.storeHeader facts h).currState = _ at downloading
        rw [currState_storeHeader, finding] at downloading
        cases downloading
    | found h single expected high absent common some continues =>
      subst single
      refine Linked.continues ?_ continues
      exact ⟨linked.links, fun _ => (linking finding expected).next sited.stored⟩
  | headers host peer items u received downloading ended some succeeded continues =>
    obtain ⟨after, stays⟩ := sited.storeHeaders downloading ended
    have before : (s.clearPeerDownload peer).Linked := ⟨linked.links, linked.attached⟩
    have kept := before.storeHeaders (sited.stored.of_same rfl rfl) ended
    exact (kept.collectBlocks after stays some succeeded).continues continues
  | bodies host peer items read u received downloading ended result =>
    obtain ⟨after, stays⟩ := sited.storeBodies downloading ended
    have kept : ((s.clearPeerDownload peer).storeBodies facts items).2.Linked :=
      Linked.storeBodies items ⟨linked.links, linked.attached⟩
    rw [ended] at kept
    obtain rfl | ⟨some, succeeded, continues⟩ := result
    · exact kept
    · exact (kept.collectBlocks after stays some succeeded).continues continues

/-- In every run in which the search only accepts headers that fit, the stored headers form chains,
and the first of them is attached to the start while blocks are downloaded. -/
theorem headers_linked {number lastIrrBlock : ℕ} {hash lastIrrBlockHash : Hash}
    {events : List (Event β)}
    (fits : Runs.Along (step facts) (fun s event => event.plain = true ∧ s.Linking event) events
      (start number hash lastIrrBlock lastIrrBlockHash))
    (ran : Runs.run (step facts) events (start number hash lastIrrBlock lastIrrBlockHash) =
      some t) :
    (∀ n g h, lookup t.headers n = some g → lookup t.headers (n + 1) = some h →
      h.parentHash = g.hash) ∧
    (t.currState = .syncBlocks → ∀ h, lookup t.headers (t.syncStartBlock + 1) = some h →
      h.parentHash = t.syncStartBlockHash) := by
  obtain ⟨-, linked⟩ := sited_run And.left Clear.linked
    (fun sited linked fits outcome => Linked.outcome linked sited fits.2 outcome) fits ran
  exact ⟨linked.links, linked.attached⟩

/-- The header before the latest one is stored as its parent. -/
theorem headers_linked_latest : ∃ s g h,
    sampleSync (sampleSearch ++ [sampleBody 8, sampleHeaders [(0, 7)]]) = some s ∧
      lookup s.headers 7 = some g ∧ lookup s.headers 8 = some h ∧ h.parentHash = g.hash := by
  obtain ⟨s, ran⟩ := Option.isSome_iff_exists.mp (show
    (sampleSync (sampleSearch ++ [sampleBody 8, sampleHeaders [(0, 7)]])).isSome = true from rfl)
  have stored : (sampleSync (sampleSearch ++ [sampleBody 8, sampleHeaders [(0, 7)]])).map
      (fun s => (lookup s.headers 7, lookup s.headers 8)) =
      some (some (sampleHeader 0 7), some (sampleHeader 0 8)) := by decide +kernel
  rw [ran] at stored
  obtain ⟨first, second⟩ := Prod.mk.inj (Option.some.inj stored)
  exact ⟨s, _, _, ran, first, second, (headers_linked (by decide +kernel) ran).1 7 _ _ first second⟩

/-- The search stores a header of another branch below the latest one and finds a common block below
both. -/
def sampleUnlinked : List (Event ℕ) :=
  [.peerStatus sampleSyncHost { samplePeer with latestHash := 106 }, sampleHeaders [(0, 6)],
    sampleHeaders [(1, 5)], sampleHeaders [(0, 4)]]

/-- Then the header of the other branch is neither the parent of the latest one nor a child of the
common block. -/
theorem headers_unlinked :
    (sampleSync sampleUnlinked).map (fun s => (s.currState, s.syncStartBlock)) =
      some (.syncBlocks, 4) ∧
    (sampleSync sampleUnlinked).map (fun s => (lookup s.headers 5, lookup s.headers 6)) =
      some (some (sampleHeader 1 5), some (sampleHeader 0 6)) ∧
    (sampleHeader 0 6).parentHash ≠ (sampleHeader 1 5).hash ∧
    (sampleSync sampleUnlinked).map (·.syncStartBlockHash) ≠
      some (sampleHeader 1 5).parentHash := by
  decide +kernel

end Search

end BlockChainSync

end Etiam
