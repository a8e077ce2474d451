import Etiam.Chain.Tree

/-! The hash that is found under a number is that of the head's ancestor with the number. -/

namespace Etiam

namespace BlockChain

variable {bc bc' : BlockChain} {block : Block} {asked : List Query}

/-- The numbers of the chain are stored with the hashes of its blocks, and no others. -/
structure Indexed (bc : BlockChain) : Prop where
  coherent : bc.blockHashes.Coherent
  listed : ∀ n : ℕ, bc.blockHashes.store[n]? =
    if 1 ≤ n ∧ n ≤ bc.lastBlockNumber then some (bc.canonical n) else none

namespace Indexed

theorem of_same (indexed : bc.Indexed) (coherent : bc'.blockHashes.Coherent)
    (store : bc'.blockHashes.store = bc.blockHashes.store)
    (number : bc'.lastBlockNumber = bc.lastBlockNumber)
    (canonical : ∀ n, bc'.canonical n = bc.canonical n) : bc'.Indexed where
  coherent := coherent
  listed n := by
    rw [store, number, canonical]
    exact indexed.listed n

theorem numberHash_eq (indexed : bc.Indexed) (grown : bc.Grown) {n : ℕ}
    (low : n ≤ bc.lastBlockNumber) : bc.numberHash n = bc.canonical n := by
  unfold numberHash
  split
  · next first =>
    subst first
    exact (grown.rooted.ancestor_zero grown.known_head).symm
  · next other =>
    rw [indexed.coherent.find_eq, indexed.listed, if_pos ⟨by omega, low⟩]
    rfl

end Indexed

theorem coherent_cleared (coherent : bc.blockHashes.Coherent) (common : Hash) :
    (bc.cleared common).blockHashes.Coherent := coherent.eraseAll _

theorem coherent_begun (coherent : bc.blockHashes.Coherent) (common : Hash) :
    (bc.begun common).blockHashes.Coherent ∧
      (bc.begun common).blockHashes.store = bc.blockHashes.store := by
  unfold begun
  split
  · exact ⟨coherent_cleared coherent common, rfl⟩
  · exact ⟨coherent, rfl⟩

theorem cache_begun (common : Hash) (m : ℕ) :
    (bc.begun common).blockHashes.cache[m]? =
      if common ≠ bc.lastBlockHash ∧ bc.number common < m ∧ m ≤ bc.lastBlockNumber then none
      else bc.blockHashes.cache[m]? := by
  unfold begun
  by_cases switch : common ≠ bc.lastBlockHash
  · rw [if_pos switch, cleared, clearCachesDuringChainReversion, Cached.cache_eraseAll]
    simp only [List.mem_range'_1]
    by_cases inside : bc.number common < m ∧ m ≤ bc.lastBlockNumber
    · rw [if_pos (by omega), if_pos ⟨switch, inside⟩]
    · rw [if_neg (by omega), if_neg (fun both => inside both.2)]
  · rw [if_neg switch, if_neg (fun both => switch both.1)]

theorem blockHashes_collected (branch : List Block) :
    (bc.collected branch).blockHashes = branch.map fun b => (b.number, b.header.hash) := by
  induction branch generalizing bc with
  | nil => rfl
  | cons b rest ih =>
    rw [collected, ExtrasBatch.append, List.map_cons]
    exact congrArg _ ih

/-- An adopted branch is listed under its numbers, over what was listed before. -/
theorem listed_of_adopts (indexed : bc.Indexed) {n : ℕ} {new : List Block}
    (adopts : bc.Adopts block n new bc')
    (written : bc'.blockHashes.store =
      (bc.blockHashes.write (new.map fun b => (b.number, b.header.hash))).store) (m : ℕ) :
    bc'.blockHashes.store[m]? =
      if 1 ≤ m ∧ m ≤ bc'.lastBlockNumber then some (bc'.canonical m) else none := by
  rw [written, adopts.number]
  have next := adopts.next
  have turn := adopts.turn
  by_cases new' : n < m ∧ m ≤ block.number
  · -- A number of the branch is listed with the block that the branch has there.
    rw [if_pos ⟨by omega, new'.2⟩]
    obtain ⟨b, found⟩ := adopts.grown.rooted.known_ancestor adopts.grown.known_head m
    have height : b.number = m := by
      rw [← (adopts.grown.details_of found).1]
      apply adopts.grown.rooted.depth_ancestor adopts.grown.known_head
      rw [adopts.grown.number_head, adopts.number]
      exact new'.2
    have single : ∀ h, (m, h) ∈ new.map (fun b => (b.number, b.header.hash)) →
        h = bc'.canonical m := by
      intro h member
      obtain ⟨b', inside, same⟩ := List.mem_map.mp member
      obtain ⟨rfl, rfl⟩ := Prod.mk.inj same
      exact adopts.grown.named _ b' ((adopts.branch b').mp inside).2.2
    refine Cached.store_write_of_mem (List.mem_map.mpr ⟨b, ?_, ?_⟩) single
    · refine (adopts.branch b).mpr ⟨by omega, by omega, ?_⟩
      rw [height]
      exact found
    · rw [height, adopts.grown.named _ b found]
      rfl
  · have absent : ∀ entry ∈ new.map (fun b => (b.number, b.header.hash)), entry.1 ≠ m := by
      intro entry member same
      obtain ⟨b, inside, rfl⟩ := List.mem_map.mp member
      obtain ⟨above, low, -⟩ := (adopts.branch b).mp inside
      exact new' ⟨same ▸ above, same ▸ low⟩
    rw [Cached.store_write_of_not_mem absent, indexed.listed]
    by_cases old : m ≤ n
    · rw [adopts.below m old]
      by_cases first : 1 ≤ m
      · rw [if_pos ⟨first, by omega⟩, if_pos ⟨first, by omega⟩]
      · rw [if_neg (fun both => first both.1), if_neg (fun both => first both.1)]
    · rw [if_neg (by omega), if_neg (by omega)]

theorem store_afterAdoption (coherent : bc.blockHashes.Coherent) (common : Hash)
    (new : List Block) (c : Controller) :
    ((noteChild block bc).afterAdoption common new block asked c).blockHashes.store =
      (bc.blockHashes.write (new.map fun b => (b.number, b.header.hash))).store := by
  obtain ⟨begun, same⟩ := @coherent_begun (noteChild block bc) coherent common
  have same' := (Asks.foldl ((((noteChild block bc).begun common).bloomed new).steered c)
    asked).blockHashes.store
  have unerased : ∀ bc : BlockChain, (bc.begun common).blockHashes.store =
      bc.blockHashes.store := by
    intro bc
    unfold BlockChain.begun
    split <;> rfl
  rw [afterAdoption_eq, setHead_eq]
  refine (unerased _).trans ?_
  change ((((noteChild block bc).pushedBy common new asked c).blockHashes).write _).store = _
  rw [blockHashes_collected]
  exact Cached.store_write_congr (same'.trans same) _

/-- After an adoption, the memory has numbers up to the common block only. -/
theorem cache_afterAdoption (coherent : bc.blockHashes.Coherent) {common : Hash} {n : ℕ}
    {new : List Block} {c : Controller}
    (placed : ((noteChild block bc).afterAdoption common new block asked c).number common = n)
    (turn : common = bc.lastBlockHash → n = bc.lastBlockNumber) {m : ℕ} {h : Hash}
    (held : ((noteChild block bc).afterAdoption common new block asked
      c).blockHashes.cache[m]? = some h) :
    bc.blockHashes.store[m]? = some h ∧ (m ≤ n ∨ bc.lastBlockNumber < m) := by
  obtain ⟨begun, same⟩ := @coherent_begun (noteChild block bc) coherent common
  have asks := Asks.foldl ((((noteChild block bc).begun common).bloomed new).steered c) asked
  have stored : ∀ {k : ℕ} {v : Hash},
      ((noteChild block bc).pushedBy common new asked c).blockHashes.cache[k]? = some v →
        bc.blockHashes.store[k]? = some v := by
    intro k v found
    rw [← show _ = bc.blockHashes.store from asks.blockHashes.store.trans same]
    exact (Cached.Coherent.asked begun asks.blockHashes) k v found
  obtain ⟨last, top⟩ := @head_writtenBy (noteChild block bc) block asked common new c
  change _ = bc.lastBlockNumber at last
  change _ = bc.lastBlockHash at top
  rw [afterAdoption_eq, setHead_eq] at held placed
  change (BlockChain.begun _ common).number common = n at placed
  rw [number_begun] at placed
  change (BlockChain.begun _ common).blockHashes.cache[m]? = some h at held
  rw [cache_begun, placed, last, top] at held
  split at held
  · cases held
  · next outside =>
    refine ⟨stored held, ?_⟩
    by_cases switch : common = bc.lastBlockHash
    · rw [turn switch]
      omega
    · have apart : ¬ (n < m ∧ m ≤ bc.lastBlockNumber) := fun both => outside ⟨switch, both⟩
      omega

theorem Imported.indexed (imported : Imported bc block asked bc') (grown : bc.Grown)
    (indexed : bc.Indexed) : bc'.Indexed := by
  have grown' := imported.grown grown
  cases imported with
  | refused => exact indexed
  | unrouted fits =>
    exact indexed.of_same indexed.coherent rfl rfl
      (grown.canonical_eq grown'.toStocked (fun _ _ found => found) rfl)
  | aside fits low =>
    have fits' : (noteChild block bc).Fits block := ⟨fits.new, fits.follows, fits.bounded⟩
    exact indexed.of_same indexed.coherent rfl rfl
      (grown.canonical_eq grown'.toStocked (fun _ _ found => fits'.blocks_store_of_some found) rfl)
  | @rejected fits higher route done redone d routed how =>
    obtain ⟨coherent, same⟩ := @coherent_begun (noteChild block bc) indexed.coherent route.common
    refine indexed.of_same (coherent.eraseAll _) same (lastBlockNumber_begun route.common)
      (grown.canonical_eq grown'.toStocked (fun hash b found => ?_)
        (lastBlockHash_begun route.common))
    rw [← found]
    exact congrArg (·[hash]?) (blocks_begun route.common)
  | @adopted fits higher route c₀ c routed began pushed =>
    have appends : bc.Appends block ((noteChild block bc).afterAdoption route.common
        (bc.blocksOf route.fresh ++ [block]) block asked c) :=
          appends_afterAdoption grown fits _ _ c
    obtain ⟨n, placed, -, -, adopts⟩ := grown.adopts fits higher routed appends
    have listed := listed_of_adopts indexed adopts
      (store_afterAdoption indexed.coherent route.common _ c)
    refine ⟨?_, listed⟩
    intro m h held
    have known := grown.known_common routed
    obtain ⟨stored, apart⟩ := cache_afterAdoption indexed.coherent
      ((grown.toStocked.agree appends.stocked appends.kept known).1.trans placed)
      (fun onHead => by rw [← placed, onHead, grown.number_head]) held
    -- What was stored under a number up to the common block is stored there still.
    rw [indexed.listed] at stored
    split at stored
    · next inside =>
      have low : m ≤ n := by omega
      have next := adopts.next
      rw [listed, adopts.number, if_pos ⟨inside.1, by omega⟩, adopts.below m low, stored]
    · cases stored

theorem Indexed.call {call : Call} (indexed : bc.Indexed) (grown : bc.Grown)
    (called : bc.call call = some bc') : bc'.Indexed := by
  have grown' := grown.call called
  cases call with
  | importBlock block asked => exact (imported_of_receive grown called).indexed grown indexed
  | ask query =>
    cases called
    have asks := Asks.ask bc query
    refine indexed.of_same (indexed.coherent.asked asks.blockHashes) asks.blockHashes.store
      asks.lastBlockNumber
      (grown.canonical_eq grown'.toStocked (fun hash b found => ?_) asks.lastBlockHash)
    rw [asks.blocks]
    exact found
  | garbageCollect =>
    cases called
    exact indexed.of_same indexed.coherent rfl rfl
      (grown.canonical_eq grown'.toStocked (fun _ _ found => found) rfl)

theorem indexed_start {genesis : Block} {initialProducers : List Address}
    (started : start genesis initialProducers = some bc) : bc.Indexed := by
  unfold start at started
  split at started
  · cases started
  · obtain ⟨c, -, made⟩ := Option.bind_eq_some_iff.mp started
    cases made
    constructor
    · intro n h held
      simp at held
    · intro n
      rw [if_neg (fun both => by have low := both.2; have high := both.1; dsimp at low; omega)]
      simp

theorem Indexed.calls {cs : List Call} (indexed : bc.Indexed) (grown : bc.Grown)
    (ran : bc.calls cs = some bc') : bc'.Indexed := by
  induction cs generalizing bc with
  | nil =>
    cases ran
    exact indexed
  | cons call rest ih =>
    obtain ⟨mid, first, others⟩ := Option.bind_eq_some_iff.mp ran
    exact ih (indexed.call grown first) (grown.call first) others

/-- Whatever was imported, adopted or rejected, and whatever was asked in between and meanwhile,
the hash under a number of the chain is that of the head's ancestor with the number. -/
theorem number_hash_is_ancestor {genesis : Block} {initialProducers : List Address}
    {first : BlockChain} (started : start genesis initialProducers = some first) {cs : List Call}
    (ran : first.calls cs = some bc) {n : ℕ} (low : n ≤ bc.lastBlockNumber) :
    bc.numberHash n = bc.parent^[bc.lastBlockNumber - n] bc.lastBlockHash ∧
      bc.number (bc.numberHash n) = n := by
  have grown := (grown_start started).calls ran
  have indexed := (indexed_start started).calls (grown_start started) ran
  rw [indexed.numberHash_eq grown low, canonical,
    grown.rooted.depth_ancestor grown.known_head (by rw [grown.number_head]; exact low),
    Ancestry.ancestor, grown.number_head]
  exact ⟨rfl, rfl⟩

/-- The first block of a small chain. -/
def sampleGenesis : Block := .signed 0 0 0 7 0 [] 1 (by decide) (by decide +kernel)

/-- A block on the first one, then two blocks on another branch that is adopted. -/
def switching : List Call :=
  [.importBlock (.signed 100 1 1513580387 11 7 [] 2 (by decide) (by decide +kernel)) [],
    .importBlock (.signed 200 1 1513580327 21 7 [] 4 (by decide) (by decide +kernel)) [],
    .importBlock (.signed 100 2 1513580387 22 21 [] 8 (by decide) (by decide +kernel))
      [.numberHash 1]]

/-- After a switch of branches, the number one leads to the head's parent. -/
theorem number_hash_is_ancestor_switched :
    ∃ bc, (start sampleGenesis [100, 200]).bind (·.calls switching) = some bc ∧
      bc.lastBlockHash = 22 ∧ bc.numberHash 1 = bc.parent bc.lastBlockHash := by
  have ran : ((start sampleGenesis [100, 200]).bind (·.calls switching)).map
      (fun bc => (bc.lastBlockNumber, bc.lastBlockHash)) = some (2, 22) := by decide +kernel
  obtain ⟨bc, reached, head⟩ := Option.map_eq_some_iff.mp ran
  obtain ⟨first, started, run⟩ := Option.bind_eq_some_iff.mp reached
  obtain ⟨number, hash⟩ := Prod.mk.inj head
  have found := (number_hash_is_ancestor started run (n := 1) (by omega)).1
  rw [number] at found
  exact ⟨bc, reached, hash, found⟩

end BlockChain

end Etiam
