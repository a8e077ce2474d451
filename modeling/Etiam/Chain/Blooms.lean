import Etiam.Chain.BloomIndex
import Etiam.Chain.Canonical

/-! The blooms of canonical blocks are found as long as the chain never switches branches, and are
lost from memory by every switch. -/

namespace Etiam

namespace BlockChain

open Config BloomIndex

variable {bc bc' : BlockChain} {block : Block} {asked : List Query}

/-- Every canonical block but the first has its bloom on every level, in memory and stored. -/
def Covers (bc : BlockChain) : Prop :=
  ∀ n, 1 ≤ n → n ≤ bc.lastBlockNumber → ∀ b : Block, bc.blocks[bc.canonical n]? = some b →
    ∀ level < bloomIndexLevels,
      Contains (bc.blocksBlooms.look level (n / bloomIndexSize ^ level)) b.blockBloom ∧
      Contains (bc.blocksBlooms.stored level (n / bloomIndexSize ^ level)) b.blockBloom

/-- A block that is higher than the head without following it. -/
def Forks (bc : BlockChain) (block : Block) : Prop :=
  bc.lastBlockNumber < block.number ∧ block.header.parentHash ≠ bc.lastBlockHash

/-- No call imports a block that is higher than the head without following it. -/
def Straight : BlockChain → List Call → Prop
  | _, [] => True
  | bc, call :: rest =>
    (∀ block asked, call = .importBlock block asked → ¬ bc.Forks block) ∧
      ∀ bc', bc.call call = some bc' → Straight bc' rest

/-- What keeps the canonical blocks and takes nothing from their blooms keeps them covered. -/
theorem covers_of_more (grown : bc.Grown) (grown' : bc'.Grown)
    (kept : ∀ (hash : Hash) (b : Block), bc.blocks[hash]? = some b → bc'.blocks[hash]? = some b)
    (head : bc'.lastBlockHash = bc.lastBlockHash)
    (number : bc'.lastBlockNumber = bc.lastBlockNumber)
    (more : ∀ n b, 1 ≤ n → n ≤ bc.lastBlockNumber → bc.blocks[bc.canonical n]? = some b →
      ∀ level < bloomIndexLevels,
        Contains (bc'.blocksBlooms.look level (n / bloomIndexSize ^ level)) b.blockBloom ∧
        Contains (bc'.blocksBlooms.stored level (n / bloomIndexSize ^ level)) b.blockBloom) :
    bc'.Covers := by
  intro n positive low b found
  rw [number] at low
  rw [grown.canonical_eq grown'.toStocked kept head] at found
  obtain ⟨b', old⟩ := grown.rooted.known_ancestor grown.known_head n
  have same := kept _ b' old
  change bc'.blocks[bc.canonical n]? = some b' at same
  rw [found] at same
  cases same
  exact more n b positive low old

theorem treeRoute_self {route : Ancestry.Route Hash}
    (routed : bc.treeRoute bc.lastBlockHash bc.lastBlockHash = some route) :
    route = ⟨[], bc.lastBlockHash, []⟩ := by
  simp only [treeRoute, Ancestry.route, Nat.sub_self, Ancestry.path, Function.iterate_zero,
    id_eq, Nat.min_self] at routed
  obtain ⟨rest, climbed, made⟩ := Option.bind_eq_some_iff.mp routed
  cases made
  unfold Ancestry.climb at climbed
  split at climbed
  · cases climbed
  · rw [if_pos rfl] at climbed
    cases climbed
    rfl

theorem covers_afterRejection (covers : bc.Covers) (grown : bc.Grown) (fits : bc.Fits block)
    (d : Controller) :
    ((noteChild block bc).afterRejection bc.lastBlockHash [] [] d).Covers := by
  have noted := grown_noteChild grown fits
  have begun : (noteChild block bc).begun bc.lastBlockHash = noteChild block bc :=
    if_neg (fun other => other rfl)
  have above : (noteChild block bc).number bc.lastBlockHash = bc.lastBlockNumber := by
    rw [number_noteChild, grown.number_head]
  have blooms : ((noteChild block bc).afterRejection bc.lastBlockHash [] [] d).blocksBlooms =
      clearBlockBlooms (bc.lastBlockNumber + 1) (bc.lastBlockNumber + 1) bc.blocksBlooms := by
    unfold afterRejection
    rw [begun]
    change clearBlockBlooms ((noteChild block bc).number bc.lastBlockHash + 1)
      (bc.lastBlockNumber + 1) bc.blocksBlooms = _
    rw [above]
  have bounded := grown.bounded
  refine covers_of_more grown (grown_afterRejection noted _ _ _ d) ?_ ?_ ?_ ?_
  · intro hash b found
    rw [← found]
    exact congrArg (·[hash]?) (blocks_begun bc.lastBlockHash)
  · exact lastBlockHash_begun bc.lastBlockHash
  · exact lastBlockNumber_begun bc.lastBlockHash
  · intro n b positive low found level few
    rw [blooms]
    have old := covers n positive low b found
    refine ⟨?_, ?_⟩
    · -- Only the upper level can be touched, and it is rebuilt from the one below.
      have levels : level = 0 ∨ level = 1 := by unfold bloomIndexLevels at few; omega
      obtain rfl | rfl := levels
      · have first := (old 0 few).1
        rw [pow_zero, Nat.div_one] at first ⊢
        rw [look_clear_zero (by omega) (by omega) (by omega), if_neg (by omega)]
        exact first
      · rw [pow_one]
        refine contains_clear_one (by omega) (by omega) (by omega) (.inl (by omega)) ?_ ?_
        · simpa using (old 0 (by decide)).1
        · simpa using (old 1 few).1
    · unfold BloomIndex.stored
      rw [store_clearBlockBlooms]
      exact (old level few).2

/-- What is stored with a block on the head: the bunches of its bloom, as they are in memory. -/
theorem blooms_afterAdoption (c : Controller) :
    ∃ base : BloomIndex, ∃ batch : List (ℕ × BlocksBlooms),
      (addBloom block.number block.blockBloom bc.blocksBlooms).Asked base ∧
      (∀ id, (∃ bunch, (id, bunch) ∈ batch) ↔ id ∈ alteredBlooms block.number) ∧
      (∀ entry ∈ batch, base.cache[entry.1]? = some entry.2) ∧
      ((noteChild block bc).afterAdoption bc.lastBlockHash [block] block asked c).blocksBlooms =
        base.write batch := by
  have begun : (noteChild block bc).begun bc.lastBlockHash = noteChild block bc :=
    if_neg (fun other => other rfl)
  have asks := Asks.foldl (((noteChild block bc).bloomed [block]).steered c) asked
  refine ⟨_, (alteredBlooms block.number).map fun id =>
    (id, (addBloom block.number block.blockBloom bc.blocksBlooms).cache.getD id .null),
    asks.blocksBlooms, ?_, ?_, ?_⟩
  · intro id
    simp
  · intro entry member
    obtain ⟨id, altered, rfl⟩ := List.mem_map.mp member
    obtain ⟨bunch, held⟩ := @held_addBloom bc.blocksBlooms block.number block.blockBloom id altered
    rw [Std.ExtTreeMap.getD_eq_getD_getElem?, held]
    exact asks.blocksBlooms.kept id bunch held
  · have same := (@head_writtenBy (noteChild block bc) block asked bc.lastBlockHash [block] c).2
    have still : ∀ X : BlockChain, X.lastBlockHash = bc.lastBlockHash →
        (setHead bc.lastBlockHash block X).blocksBlooms = X.blocksBlooms := by
      intro X equal
      rw [setHead_eq, BlockChain.begun, if_neg (fun other => other equal.symm)]
    have batch : ((noteChild block bc).collected [block]).blocksBlooms =
        (alteredBlooms block.number).map fun id =>
          (id, (addBloom block.number block.blockBloom bc.blocksBlooms).cache.getD id .null) :=
      List.append_nil _
    rw [afterAdoption_eq, still _ same, writtenBy, pushedBy, begun, ← batch]
    rfl

theorem covers_afterAdoption {c : Controller} (covers : bc.Covers) (grown : bc.Grown)
    (adopts : bc.Adopts block bc.lastBlockNumber [block]
      ((noteChild block bc).afterAdoption bc.lastBlockHash [block] block asked c)) :
    ((noteChild block bc).afterAdoption bc.lastBlockHash [block] block asked c).Covers := by
  obtain ⟨base, batch, asks, altered, held, blooms⟩ := @blooms_afterAdoption bc block asked c
  generalize (noteChild block bc).afterAdoption bc.lastBlockHash [block] block asked c = bc' at *
  have next := adopts.next
  have bounded := adopts.grown.bounded
  rw [adopts.number] at bounded
  have answers : ∀ level index, bc'.blocksBlooms.look level index =
      BloomIndex.look (addBloom block.number block.blockBloom bc.blocksBlooms) level index := by
    intro level index
    rw [blooms, look_write held]
    unfold BloomIndex.look bloomOf
    rw [asks.find]
  intro n positive low b found level few
  rw [adopts.number] at low
  have place : Place level (n / bloomIndexSize ^ level) := .of_number (by omega) few
  have covered : Contains (bc'.blocksBlooms.look level (n / bloomIndexSize ^ level))
      b.blockBloom := by
    rw [answers, look_addBloom bounded place]
    by_cases new : n = block.number
    · -- The block itself has just been added.
      rw [new, adopts.toAppends.canonical_self, adopts.stored] at found
      cases found
      rw [if_pos (by rw [new])]
      exact .or_right _ _
    · obtain ⟨b', old⟩ := grown.rooted.known_ancestor grown.known_head n
      have same := adopts.kept _ b' old
      change bc'.blocks[bc.canonical n]? = some b' at same
      rw [← adopts.below n (by omega), found] at same
      cases same
      have before := (covers n positive (by omega) b old level few).1
      split
      · exact before.or_left
      · exact before
  refine ⟨covered, ?_⟩
  by_cases written : ∃ bunch,
      (chunkId level (n / bloomIndexSize ^ level / bloomIndexSize), bunch) ∈ batch
  · -- A bunch that was stored is as it is in memory.
    rw [blooms, stored_write_of_mem held written, ← look_write held, ← blooms]
    exact covered
  · have old : n ≠ block.number := by
      rintro rfl
      exact written ((altered _).mpr (List.mem_map.mpr ⟨level, List.mem_range.mpr few, rfl⟩))
    have unchanged : base.stored level (n / bloomIndexSize ^ level) =
        bc.blocksBlooms.stored level (n / bloomIndexSize ^ level) := by
      unfold BloomIndex.stored
      rw [asks.store, store_addBloom]
    obtain ⟨b', before⟩ := grown.rooted.known_ancestor grown.known_head n
    have same := adopts.kept _ b' before
    change bc'.blocks[bc.canonical n]? = some b' at same
    rw [← adopts.below n (by omega), found] at same
    cases same
    rw [blooms, stored_write_of_not_mem written, unchanged]
    exact (covers n positive (by omega) b before level few).2

theorem Rejection.nothing {common : Hash} {done redone : List Block} {d : Controller}
    (how : bc.Rejection common [] [block] done redone d) : done = [] ∧ redone = [] := by
  obtain ⟨c₀, c₁, c₂, -, ⟨b, rest, mid, failure, split, -⟩, -, again⟩ := how
  have first : done = [] := by
    cases done with
    | nil => rfl
    | cons x done =>
      have tail := (List.cons.inj split).2
      cases done <;> cases tail
  refine ⟨first, ?_⟩
  obtain ⟨same, -⟩ | ⟨b', rest', mid', failure', split', -⟩ := again
  · exact same
  · cases redone <;> cases split'

theorem Imported.covers (imported : Imported bc block asked bc') (grown : bc.Grown)
    (covers : bc.Covers) (straight : ¬ bc.Forks block) : bc'.Covers := by
  have grown' := imported.grown grown
  have onHead : bc.lastBlockNumber < block.number →
      block.header.parentHash = bc.lastBlockHash := by
    intro higher
    by_contra other
    exact straight ⟨higher, other⟩
  cases imported with
  | refused => exact covers
  | unrouted fits =>
    exact covers_of_more grown grown' (fun _ _ found => found) rfl rfl
      (fun n b positive low found => covers n positive low b found)
  | aside fits low =>
    have fits' : (noteChild block bc).Fits block := ⟨fits.new, fits.follows, fits.bounded⟩
    exact covers_of_more grown grown' (fun _ _ found => fits'.blocks_store_of_some found) rfl rfl
      (fun n b positive low found => covers n positive low b found)
  | rejected fits higher routed how =>
    rw [onHead higher] at routed
    obtain rfl := treeRoute_self routed
    obtain ⟨rfl, rfl⟩ := Rejection.nothing how
    exact covers_afterRejection covers grown fits _
  | adopted fits higher routed began pushed =>
    have plain := routed
    rw [onHead higher] at plain
    obtain rfl := treeRoute_self plain
    obtain ⟨n, placed, -, -, adopts⟩ :=
      grown.adopts fits higher routed (appends_afterAdoption grown fits _ _ _)
    rw [grown.number_head] at placed
    subst placed
    exact covers_afterAdoption covers grown adopts

theorem Covers.call {call : Call} (covers : bc.Covers) (grown : bc.Grown)
    (straight : ∀ block asked, call = .importBlock block asked → ¬ bc.Forks block)
    (called : bc.call call = some bc') : bc'.Covers := by
  have grown' := grown.call called
  cases call with
  | importBlock block asked =>
    exact (imported_of_receive grown called).covers grown covers (straight block asked rfl)
  | ask query =>
    cases called
    have asks := Asks.ask bc query
    refine covers_of_more grown grown' (fun hash b found => by rw [asks.blocks]; exact found)
      asks.lastBlockHash asks.lastBlockNumber ?_
    intro n b positive low found level few
    have old := covers n positive low b found level few
    unfold BloomIndex.look BloomIndex.stored bloomOf at old ⊢
    rw [asks.blocksBlooms.store, asks.blocksBlooms.find]
    exact old
  | garbageCollect =>
    cases called
    refine covers_of_more grown grown' (fun _ _ found => found) rfl rfl ?_
    intro n b positive low found level few
    have old := (covers n positive low b found level few).2
    refine ⟨?_, old⟩
    unfold BloomIndex.look bloomOf garbageCollect
    rw [Cached.find_clear]
    exact old

theorem Covers.calls {cs : List Call} (covers : bc.Covers) (grown : bc.Grown)
    (straight : Straight bc cs) (ran : bc.calls cs = some bc') : bc'.Covers := by
  induction cs generalizing bc with
  | nil =>
    cases ran
    exact covers
  | cons call rest ih =>
    obtain ⟨mid, first, others⟩ := Option.bind_eq_some_iff.mp ran
    exact ih (covers.call grown straight.1 first) (grown.call first) (straight.2 mid first) others

theorem Covers.mem_withBlockBloom (covers : bc.Covers) {n : ℕ} {b : Block}
    (positive : 1 ≤ n) (low : n ≤ bc.lastBlockNumber) (found : bc.blocks[bc.canonical n]? = some b)
    {bloom : LogBloom} (wanted : Contains b.blockBloom bloom) {earliest latest : ℕ}
    (early : earliest ≤ n) (late : n ≤ latest) (bounded : latest + 255 < 2 ^ 32) :
    n ∈ bc.blocksBlooms.withBlockBloom bloom earliest latest := by
  have zero := (covers n positive low b found 0 (by decide)).1
  have one := (covers n positive low b found 1 (by decide)).1
  rw [pow_zero, Nat.div_one] at zero
  rw [pow_one] at one
  exact BloomIndex.mem_withBlockBloom early late bounded (zero.trans wanted) (one.trans wanted)

/-- After a switch of branches, the blooms above the common block are cleared. -/
theorem blooms_of_switch {common : Hash} {new : List Block} {c : Controller} {n : ℕ}
    (placed : ((noteChild block bc).afterAdoption common new block asked c).number common = n)
    (switch : common ≠ bc.lastBlockHash) :
    ∃ pushed, ((noteChild block bc).afterAdoption common new block asked c).blocksBlooms =
      clearBlockBlooms (n + 1) (bc.lastBlockNumber + 1) pushed := by
  obtain ⟨last, top⟩ := @head_writtenBy (noteChild block bc) block asked common new c
  change _ = bc.lastBlockNumber at last
  change _ = bc.lastBlockHash at top
  rw [afterAdoption_eq, setHead_eq] at placed ⊢
  generalize (noteChild block bc).writtenBy block common new asked c = X at *
  change (X.begun common).number common = n at placed
  rw [number_begun] at placed
  refine ⟨X.blocksBlooms, ?_⟩
  change (X.begun common).blocksBlooms = _
  rw [BlockChain.begun, if_pos (by rw [top]; exact switch), cleared, placed, ← last]
  rfl

/-- A switch of branches leaves the first block of the new branch without its bloom. -/
theorem Imported.not_covers (imported : Imported bc block asked bc') (grown : bc.Grown)
    (forks : bc.Forks block) (moved : bc'.lastBlockHash ≠ bc.lastBlockHash) : ¬ bc'.Covers := by
  cases imported with
  | refused => exact absurd rfl moved
  | unrouted fits => exact absurd rfl moved
  | aside fits low => exact absurd rfl moved
  | rejected fits higher routed how => exact absurd (lastBlockHash_begun _) moved
  | @adopted fits higher route c₀ c routed began pushed =>
    have appends : bc.Appends block ((noteChild block bc).afterAdoption route.common
        (bc.blocksOf route.fresh ++ [block]) block asked c) :=
          appends_afterAdoption grown fits _ _ c
    obtain ⟨n, placed, -, meets, adopts⟩ := grown.adopts fits higher routed appends
    have next := adopts.next
    have turn := adopts.turn
    obtain ⟨above, found, one⟩ := fits.follows
    -- The branches part below the old head, since the block does not follow it.
    have below : n < bc.lastBlockNumber := by
      by_contra top
      obtain rfl : n = bc.lastBlockNumber := by omega
      have height : bc.number block.header.parentHash = bc.lastBlockNumber := by
        rw [(grown.details_of found).1]
        omega
      have first := adopts.below _ (Nat.le_refl _)
      rw [appends.canonical_of_lt grown fits (by omega), ← height, Ancestry.Rooted.ancestor_self,
        height, canonical, ← grown.number_head, Ancestry.Rooted.ancestor_self] at first
      exact forks.2 first
    have switch : route.common ≠ bc.lastBlockHash := by
      intro same
      rw [same, grown.number_head] at placed
      omega
    obtain ⟨pushed, blooms⟩ := @blooms_of_switch bc block asked route.common _ c n
      ((grown.toStocked.agree appends.stocked appends.kept (grown.known_common routed)).1.trans
        placed) switch
    intro covers
    obtain ⟨b, there⟩ := adopts.grown.rooted.known_ancestor adopts.grown.known_head (n + 1)
    have covered := (covers (n + 1) (by omega) (by rw [adopts.number]; omega) b there 0
      (by decide)).1
    have bounded := grown.bounded
    rw [blooms, pow_zero, Nat.div_one, look_clear_zero (by omega) (by omega) (by omega),
      if_pos ⟨Nat.le_refl _, by omega⟩] at covered
    exact b.authored covered.eq_zero

section First

/-- Blocks that come after the first one. -/
def Later (branch : List Block) : Prop := ∀ b ∈ branch, 1 ≤ b.number ∧ b.number < 2 ^ 32

theorem vacant_bloomed {branch : List Block} (later : Later branch)
    (vacant : bc.blocksBlooms.Vacant) : (bc.bloomed branch).blocksBlooms.Vacant := by
  induction branch generalizing bc with
  | nil => exact vacant
  | cons b rest ih =>
    obtain ⟨positive, bounded⟩ := later b List.mem_cons_self
    exact @ih (bc.bloomed [b]) (fun x member => later x (List.mem_cons_of_mem b member))
      (vacant.addBloom positive bounded b.blockBloom)

theorem vacant_collected {branch : List Block} (later : Later branch)
    (vacant : bc.blocksBlooms.Vacant) {bunch : BlocksBlooms}
    (member : (0, bunch) ∈ (bc.collected branch).blocksBlooms) : bunch.blooms (offset 0) = 0 := by
  induction branch generalizing bc with
  | nil => cases member
  | cons b rest ih =>
    obtain ⟨positive, bounded⟩ := later b List.mem_cons_self
    have added := vacant.addBloom positive bounded b.blockBloom
    obtain here | further := List.mem_append.mp member
    · obtain ⟨id, -, made⟩ := List.mem_map.mp here
      obtain ⟨rfl, rfl⟩ := Prod.mk.inj made
      exact added.held
    · exact @ih (bc.bloomed [b]) (fun x inside => later x (List.mem_cons_of_mem b inside)) added
        further

theorem vacant_cleared (bounded : bc.lastBlockNumber < 2 ^ 32) (vacant : bc.blocksBlooms.Vacant)
    (common : Hash) : (bc.cleared common).blocksBlooms.Vacant :=
  vacant.clearBlockBlooms (by omega) (Nat.succ_pos _) bounded

theorem vacant_begun (bounded : bc.lastBlockNumber < 2 ^ 32) (vacant : bc.blocksBlooms.Vacant)
    (common : Hash) : (bc.begun common).blocksBlooms.Vacant := by
  unfold BlockChain.begun
  split
  · exact vacant_cleared bounded vacant common
  · exact vacant

theorem Grown.later (grown : bc.Grown) {hash : Hash} (known : bc.Known hash) (n : ℕ) :
    Later (bc.blocksOf (Ancestry.path bc.parent (bc.number hash - n) hash)) := by
  intro b member
  obtain ⟨above, -, found⟩ := (grown.mem_blocksOf known).mp member
  have low := grown.low _ b found
  have bounded := grown.bounded
  omega

theorem Grown.later_route (grown : bc.Grown) (fits : bc.Fits block) {route : Ancestry.Route Hash}
    (routed : bc.treeRoute bc.lastBlockHash block.header.parentHash = some route) :
    Later (bc.blocksOf route.dead) ∧ Later (bc.blocksOf route.fresh ++ [block]) := by
  obtain ⟨n, turns⟩ := Ancestry.Rooted.route_eq_some routed
  obtain ⟨above, found, next⟩ := fits.follows
  rw [turns.dead, turns.fresh]
  refine ⟨grown.later grown.known_head n, ?_⟩
  intro b member
  obtain old | new := List.mem_append.mp member
  · exact grown.later ⟨above, found⟩ n b old
  · rw [List.mem_singleton.mp new]
    exact ⟨by omega, fits.bounded⟩

theorem Rejection.later {common : Hash} {old new done redone : List Block} {d : Controller}
    (how : bc.Rejection common old new done redone d) (laterOld : Later old)
    (laterNew : Later new) : Later done ∧ Later redone := by
  obtain ⟨c₀, c₁, c₂, -, ⟨b, rest, mid, failure, split, -⟩, -, again⟩ := how
  subst split
  refine ⟨fun x member => laterNew x (List.mem_append_left _ member), ?_⟩
  obtain ⟨rfl, -⟩ | ⟨b', rest', mid', failure', split', -⟩ := again
  · exact laterOld
  · subst split'
    exact fun x member => laterOld x (List.mem_append_left _ member)

theorem Imported.vacant (imported : Imported bc block asked bc') (grown : bc.Grown)
    (vacant : bc.blocksBlooms.Vacant) : bc'.blocksBlooms.Vacant := by
  have bounded := grown.bounded
  cases imported with
  | refused => exact vacant
  | unrouted fits => exact vacant
  | aside fits low => exact vacant
  | @rejected fits higher route done redone d routed how =>
    obtain ⟨laterOld, laterNew⟩ := grown.later_route fits routed
    obtain ⟨laterDone, laterRedone⟩ := how.later laterOld laterNew
    have begun := @vacant_begun (noteChild block bc) bounded vacant route.common
    have low : (((noteChild block bc).begun route.common).bloomed done).lastBlockNumber <
        2 ^ 32 := by
      change ((noteChild block bc).begun route.common).lastBlockNumber < 2 ^ 32
      rw [lastBlockNumber_begun]
      exact bounded
    exact vacant_bloomed laterRedone (vacant_cleared low (vacant_bloomed laterDone begun) _)
  | @adopted fits higher route c₀ c routed began pushed =>
    obtain ⟨-, laterNew⟩ := grown.later_route fits routed
    have begun := @vacant_begun (noteChild block bc) bounded vacant route.common
    have asks := Asks.foldl ((((noteChild block bc).begun route.common).bloomed
      (bc.blocksOf route.fresh ++ [block])).steered c) asked
    have stored : ((noteChild block bc).writtenBy block route.common
        (bc.blocksOf route.fresh ++ [block]) asked c).blocksBlooms.Vacant :=
      ((vacant_bloomed laterNew begun).asked asks.blocksBlooms).write
        (fun bunch member => vacant_collected laterNew begun member)
    rw [afterAdoption_eq, setHead_eq]
    refine vacant_begun ?_ stored route.common
    rw [(head_writtenBy _ _ c).1]
    exact bounded

theorem vacant_calls {cs : List Call} (grown : bc.Grown) (vacant : bc.blocksBlooms.Vacant)
    (ran : bc.calls cs = some bc') : bc'.blocksBlooms.Vacant := by
  induction cs generalizing bc with
  | nil =>
    cases ran
    exact vacant
  | cons call rest ih =>
    obtain ⟨mid, first, others⟩ := Option.bind_eq_some_iff.mp ran
    refine ih (grown.call first) ?_ others
    cases call with
    | importBlock block asked => exact (imported_of_receive grown first).vacant grown vacant
    | ask query =>
      cases first
      exact vacant.asked (Asks.ask bc query).blocksBlooms
    | garbageCollect =>
      cases first
      exact vacant.clear

end First

theorem index_start {genesis : Block} {initialProducers : List Address}
    (started : start genesis initialProducers = some bc) :
    bc.lastBlockNumber = 0 ∧ bc.blocksBlooms = ⟨∅, ∅⟩ := by
  unfold start at started
  split at started
  · cases started
  · obtain ⟨c, -, made⟩ := Option.bind_eq_some_iff.mp started
    cases made
    exact ⟨rfl, rfl⟩

/-- As long as no block is imported that is higher than the head without following it, every
canonical block but the first is covered and found. A block for which the chain switches branches
leaves one that is not covered, and the first block never is. -/
theorem blooms_cover_straight_runs {genesis : Block} {initialProducers : List Address}
    {first : BlockChain} (started : start genesis initialProducers = some first) {cs : List Call}
    (ran : first.calls cs = some bc) :
    (Straight first cs → bc.Covers ∧
      ∀ n b bloom earliest latest, 1 ≤ n → n ≤ bc.lastBlockNumber →
        bc.blocks[bc.canonical n]? = some b → Contains b.blockBloom bloom → earliest ≤ n →
        n ≤ latest → latest + 255 < 2 ^ 32 →
        n ∈ bc.blocksBlooms.withBlockBloom bloom earliest latest) ∧
    (∀ block asked bc', bc.Forks block → bc.receive block asked = some bc' →
      bc'.lastBlockHash ≠ bc.lastBlockHash → ¬ bc'.Covers) ∧
    ¬ Contains (bc.blocksBlooms.look 0 0) genesis.blockBloom ∧
    ¬ Contains (bc.blocksBlooms.stored 0 0) genesis.blockBloom := by
  have grown := (grown_start started).calls ran
  obtain ⟨number, blooms⟩ := index_start started
  have vacant : first.blocksBlooms.Vacant := by
    rw [blooms]
    constructor <;> simp [BloomIndex.look, BloomIndex.stored, bloomOf, Cached.find,
      BlocksBlooms.null]
  have vacant' := vacant_calls (grown_start started) vacant ran
  refine ⟨?_, ?_, ?_, ?_⟩
  · intro straight
    have covers : first.Covers := fun n positive low => by omega
    have covers' := covers.calls (grown_start started) straight ran
    exact ⟨covers', fun n b bloom earliest latest positive low found wanted early late bounded =>
      covers'.mem_withBlockBloom positive low found wanted early late bounded⟩
  · intro block asked bc' forks received moved
    exact (imported_of_receive grown received).not_covers grown forks moved
  · rw [vacant'.answered]
    exact fun covered => genesis.authored covered.eq_zero
  · rw [vacant'.stored]
    exact fun covered => genesis.authored covered.eq_zero

/-- A block on the first one, one of another branch that is not higher, and one that follows the
head. -/
def extending : List Call := (switching.take 2).reverse ++ switching.drop 2

/-- The heads of that run. -/
theorem heads_extending {first bc : BlockChain}
    (started : start sampleGenesis [100, 200] = some first)
    {k : Fin 4} (ran : first.calls (extending.take k) = some bc) :
    bc.lastBlockNumber = [0, 1, 1, 2].getD k 0 ∧ bc.lastBlockHash = [7, 21, 21, 22].getD k 0 := by
  have heads : ∀ k : Fin 4, ((start sampleGenesis [100, 200]).bind
      (·.calls (extending.take k))).map (fun bc => (bc.lastBlockNumber, bc.lastBlockHash)) =
        some ([0, 1, 1, 2].getD k 0, [7, 21, 21, 22].getD k 0) := by
    decide +kernel
  have head := heads k
  rw [started, Option.bind_some, ran] at head
  exact Prod.mk.inj (Option.some.inj head)

/-- In a run without a switch of branches, with a block on another branch, both blocks of the chain
are found. -/
theorem blooms_cover_straight_runs_extension :
    ∃ bc, (start sampleGenesis [100, 200]).bind (·.calls extending) = some bc ∧
      bc.lastBlockHash = 22 ∧ bc.Covers ∧ 1 ∈ bc.blocksBlooms.withBlockBloom 4 0 2 ∧
      2 ∈ bc.blocksBlooms.withBlockBloom 8 0 2 := by
  have ran : ((start sampleGenesis [100, 200]).bind (·.calls extending)).map
      (fun bc => [1, 2].map fun n => (bc.blocks[bc.canonical n]?).map (·.blockBloom)) =
        some [some 4, some 8] := by
    decide +kernel
  obtain ⟨bc, reached, blooms⟩ := Option.map_eq_some_iff.mp ran
  obtain ⟨first, started, run⟩ := Option.bind_eq_some_iff.mp reached
  -- The first and the last block follow the head, and the second one is not above it.
  have straight : Straight first extending := by
    refine ⟨?_, fun m step => ⟨?_, fun m' step' => ⟨?_, fun _ _ => trivial⟩⟩⟩
    · intro block asked same forks
      cases same
      exact forks.2 (heads_extending started (k := 0) rfl).2.symm
    · intro block asked same forks
      cases same
      have one : first.calls (extending.take 1) = some m :=
        Option.bind_eq_some_iff.mpr ⟨m, step, rfl⟩
      have height := (heads_extending started (k := 1) one).1
      exact absurd forks.1 (by rw [height]; decide)
    · intro block asked same forks
      cases same
      have two : first.calls (extending.take 2) = some m' :=
        Option.bind_eq_some_iff.mpr ⟨m, step, Option.bind_eq_some_iff.mpr ⟨m', step', rfl⟩⟩
      exact forks.2 (heads_extending started (k := 2) two).2.symm
  obtain ⟨covers, finds⟩ := (blooms_cover_straight_runs started run).1 straight
  obtain ⟨number, hash⟩ := heads_extending started (k := 3) run
  obtain ⟨low, high⟩ := List.cons.inj blooms
  obtain ⟨b, found, bloom⟩ := Option.map_eq_some_iff.mp low
  obtain ⟨b', found', bloom'⟩ := Option.map_eq_some_iff.mp (List.cons.inj high).1
  refine ⟨bc, reached, hash, covers, ?_, ?_⟩
  · exact finds 1 b 4 0 2 (by decide) (by rw [number]; decide) found
      (by rw [bloom]; exact BitVec.and_self) (by decide) (by decide) (by decide)
  · exact finds 2 b' 8 0 2 (by decide) (by rw [number]; decide) found'
      (by rw [bloom']; exact BitVec.and_self) (by decide) (by decide) (by decide)

/-- Once the chain has switched branches, its block of number one is not found by its bloom. -/
theorem blooms_lost_by_switch :
    ((start sampleGenesis [100, 200]).bind (·.calls switching)).map
      (fun bc => (bc.lastBlockHash, bc.numberHash 1,
        (bc.blocks[bc.numberHash 1]?).map (·.blockBloom),
        bc.blocksBlooms.withBlockBloom 4 1 2)) = some (22, 21, some 4, []) := by
  decide +kernel

end BlockChain

end Etiam
