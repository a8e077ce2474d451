import Etiam.Chain.Import

/-! Every call leaves the blocks in a tree, and a branch that is adopted is canonical from then on.
-/

namespace Etiam

namespace BlockChain

variable {bc bc' : BlockChain} {block : Block} {asked : List Query}

/-- The ancestor of the head with a number. -/
def canonical (bc : BlockChain) (n : ℕ) : Hash :=
  Ancestry.ancestor bc.parent bc.number n bc.lastBlockHash

section Stocked

theorem Stocked.of_same (stocked : bc.Stocked) (blocks : bc'.blocks = bc.blocks)
    (genesis : bc'.genesisHash = bc.genesisHash)
    (store : bc'.detailsTable.store = bc.detailsTable.store)
    (held : ∀ (hash : Hash) d, bc'.detailsTable.cache[hash]? = some d → bc.Tells hash d) :
    bc'.Stocked := by
  have tells : ∀ hash d, bc.Tells hash d → bc'.Tells hash d := by
    intro hash d told
    rw [Tells, blocks]
    exact told
  constructor
  · rw [blocks]
    exact stocked.named
  · rw [blocks, store]
    exact stocked.noted
  · intro hash d found
    rw [store] at found
    exact tells hash d (stocked.stored hash d found)
  · exact fun hash d found => tells hash d (held hash d found)
  · rw [blocks, genesis]
    exact stocked.genesis
  · rw [blocks, genesis]
    exact stocked.linked

theorem Grown.of_same (grown : bc.Grown) (blocks : bc'.blocks = bc.blocks)
    (genesis : bc'.genesisHash = bc.genesisHash) (hash : bc'.lastBlockHash = bc.lastBlockHash)
    (number : bc'.lastBlockNumber = bc.lastBlockNumber)
    (store : bc'.detailsTable.store = bc.detailsTable.store)
    (held : ∀ (hash : Hash) d, bc'.detailsTable.cache[hash]? = some d → bc.Tells hash d) :
    bc'.Grown where
  toStocked := grown.toStocked.of_same blocks genesis store held
  low := by
    rw [blocks, number]
    exact grown.low
  head := by
    rw [blocks, hash, number]
    exact grown.head
  bounded := by
    rw [number]
    exact grown.bounded

/-- What queries can do to a chain: fill its caches. -/
structure Asks (bc bc' : BlockChain) : Prop where
  blocks : bc'.blocks = bc.blocks
  genesisHash : bc'.genesisHash = bc.genesisHash
  lastBlockHash : bc'.lastBlockHash = bc.lastBlockHash
  lastBlockNumber : bc'.lastBlockNumber = bc.lastBlockNumber
  chainController : bc'.chainController = bc.chainController
  detailsTable : bc.detailsTable.Asked bc'.detailsTable
  blockHashes : bc.blockHashes.Asked bc'.blockHashes
  transactionAddresses : bc.transactionAddresses.Asked bc'.transactionAddresses
  blocksBlooms : bc.blocksBlooms.Asked bc'.blocksBlooms

namespace Asks

theorem refl (bc : BlockChain) : Asks bc bc :=
  ⟨rfl, rfl, rfl, rfl, rfl, .refl _, .refl _, .refl _, .refl _⟩

theorem trans {bc'' : BlockChain} (first : Asks bc bc') (second : Asks bc' bc'') :
    Asks bc bc'' where
  blocks := second.blocks.trans first.blocks
  genesisHash := second.genesisHash.trans first.genesisHash
  lastBlockHash := second.lastBlockHash.trans first.lastBlockHash
  lastBlockNumber := second.lastBlockNumber.trans first.lastBlockNumber
  chainController := second.chainController.trans first.chainController
  detailsTable := first.detailsTable.trans second.detailsTable
  blockHashes := first.blockHashes.trans second.blockHashes
  transactionAddresses := first.transactionAddresses.trans second.transactionAddresses
  blocksBlooms := first.blocksBlooms.trans second.blocksBlooms

theorem ask (bc : BlockChain) (query : Query) : Asks bc (bc.ask query) := by
  cases query with
  | details hash => exact { Asks.refl bc with detailsTable := .query _ hash }
  | numberHash n =>
    by_cases first : n = 0
    · rw [BlockChain.ask, if_pos first]
      exact .refl bc
    · rw [BlockChain.ask, if_neg first]
      exact { Asks.refl bc with blockHashes := .query _ n }
  | transactionAddress hash => exact { Asks.refl bc with transactionAddresses := .query _ hash }
  | blocksBlooms id => exact { Asks.refl bc with blocksBlooms := .query _ id }

theorem foldl (bc : BlockChain) (queries : List Query) :
    Asks bc (queries.foldl BlockChain.ask bc) := by
  induction queries generalizing bc with
  | nil => exact .refl bc
  | cons query rest ih => exact (Asks.ask bc query).trans (ih _)

theorem grown (asks : Asks bc bc') (grown : bc.Grown) : bc'.Grown := by
  refine grown.of_same asks.blocks asks.genesisHash asks.lastBlockHash asks.lastBlockNumber
    asks.detailsTable.store ?_
  intro hash d found
  have answered := asks.detailsTable.find_of_held found
  unfold Cached.find at answered
  cases held : bc.detailsTable.cache[hash]? with
  | some e =>
    rw [held] at answered
    cases answered
    exact grown.held hash d held
  | none =>
    rw [held] at answered
    exact grown.stored hash d answered

end Asks

theorem grown_garbageCollect (grown : bc.Grown) : bc.garbageCollect.Grown := by
  refine grown.of_same rfl rfl rfl rfl rfl ?_
  intro hash d found
  simp [garbageCollect, Cached.clear] at found

theorem grown_noteChild (grown : bc.Grown) (fits : bc.Fits block) : (noteChild block bc).Grown := by
  refine grown.of_same rfl rfl rfl rfl (Cached.store_change _ _ _) ?_
  intro hash d found
  rw [noteChild, Cached.cache_change] at found
  split at found
  · next same =>
    -- Only the list of children is different.
    subst same
    cases found
    obtain ⟨above, stored, -⟩ := fits.follows
    obtain ⟨number, parent⟩ := grown.details_of stored
    exact ⟨above, stored, number, parent⟩
  · exact grown.held hash d found

theorem blocks_store (hash : Hash) :
    (store block bc).blocks[hash]? =
      if hash = block.header.hash then some block else bc.blocks[hash]? := by
  simp only [store, Std.ExtTreeMap.getElem?_insert]
  by_cases same : hash = block.header.hash
  · simp [same]
  · simp [same, Ne.symm same]

theorem Fits.blocks_store_of_some (fits : bc.Fits block) {hash : Hash} {b : Block}
    (found : bc.blocks[hash]? = some b) : (store block bc).blocks[hash]? = some b := by
  rw [blocks_store, if_neg, found]
  rintro rfl
  rw [fits.new] at found
  cases found

theorem details_store {d : BlockDetails} (fits : bc.Fits block)
    (inMemory : bc.detailsTable.cache[block.header.parentHash]? = some d) (key : Hash) :
    (store block bc).detailsTable.store[key]? =
      if key = block.header.hash then some ⟨block.number, block.header.parentHash, []⟩
      else if key = block.header.parentHash then some d else bc.detailsTable.store[key]? := by
  have other : block.header.parentHash ≠ block.header.hash := by
    intro same
    obtain ⟨above, stored, -⟩ := fits.follows
    rw [same, fits.new] at stored
    cases stored
  simp only [store, Cached.store_write, Std.ExtTreeMap.getD_eq_getD_getElem?, inMemory,
    Option.getD_some, List.reverse_cons, List.reverse_nil, List.nil_append,
    List.singleton_append, List.find?_cons, List.find?_nil]
  by_cases first : key = block.header.hash
  · simp [first]
  · by_cases second : key = block.header.parentHash
    · simp [second, other, Ne.symm other]
    · simp [first, second, Ne.symm first, Ne.symm second]

theorem stocked_store (stocked : bc.Stocked) (fits : bc.Fits block)
    (held : ∃ d, bc.detailsTable.cache[block.header.parentHash]? = some d) :
    (store block bc).Stocked := by
  -- What was told of a block stays true; the new one follows its parent.
  obtain ⟨d, inMemory⟩ := held
  have tells : ∀ hash e, bc.Tells hash e → (store block bc).Tells hash e := by
    rintro hash e ⟨b, found, told⟩
    exact ⟨b, fits.blocks_store_of_some found, told⟩
  constructor
  case named =>
    intro hash b found
    rw [blocks_store] at found
    split at found
    · next same =>
      cases found
      exact same.symm
    · exact stocked.named hash b found
  case noted =>
    intro hash b found
    rw [blocks_store] at found
    rw [details_store fits inMemory]
    split
    · exact ⟨_, rfl⟩
    · next different =>
      rw [if_neg different] at found
      split
      · exact ⟨_, rfl⟩
      · exact stocked.noted hash b found
  case stored =>
    intro hash e found
    rw [details_store fits inMemory] at found
    split at found
    · next same =>
      cases found
      refine ⟨block, ?_, rfl, rfl⟩
      rw [blocks_store, if_pos same]
    · split at found
      · next same =>
        cases found
        subst same
        exact tells _ d (stocked.held _ d inMemory)
      · exact tells hash e (stocked.stored hash e found)
  case held => exact fun hash e found => tells hash e (stocked.held hash e found)
  case genesis =>
    obtain ⟨b, found, first⟩ := stocked.genesis
    exact ⟨b, fits.blocks_store_of_some found, first⟩
  case linked =>
    intro hash b found other
    rw [blocks_store] at found
    split at found
    · cases found
      obtain ⟨above, stored, next⟩ := fits.follows
      exact ⟨above, fits.blocks_store_of_some stored, next⟩
    · obtain ⟨above, stored, next⟩ := stocked.linked hash b found other
      exact ⟨above, fits.blocks_store_of_some stored, next⟩

end Stocked

section Branches

section

variable (stocked : bc.Stocked) (stocked' : bc'.Stocked)
  (kept : ∀ (hash : Hash) (b : Block), bc.blocks[hash]? = some b → bc'.blocks[hash]? = some b)

include stocked stocked' kept

/-- Chains agree about the blocks that one of them has and the other one keeps. -/
theorem Stocked.agree {hash : Hash} (known : bc.Known hash) :
    bc'.number hash = bc.number hash ∧ bc'.parent hash = bc.parent hash := by
  obtain ⟨b, found⟩ := known
  obtain ⟨number, parent⟩ := stocked.details_of found
  obtain ⟨number', parent'⟩ := stocked'.details_of (kept hash b found)
  rw [number, parent, number', parent']
  exact ⟨rfl, rfl⟩

theorem Stocked.ancestor_eq {hash : Hash} (known : bc.Known hash) (n : ℕ) :
    Ancestry.ancestor bc'.parent bc'.number n hash =
      Ancestry.ancestor bc.parent bc.number n hash :=
  stocked.rooted.ancestor_congr (fun _ k => (stocked.agree stocked' kept k).2)
    (fun _ k => (stocked.agree stocked' kept k).1) known n

end

theorem Grown.canonical_eq (grown : bc.Grown) (stocked' : bc'.Stocked)
    (kept : ∀ (hash : Hash) (b : Block), bc.blocks[hash]? = some b → bc'.blocks[hash]? = some b)
    (head : bc'.lastBlockHash = bc.lastBlockHash) (n : ℕ) : bc'.canonical n = bc.canonical n := by
  rw [canonical, head, grown.toStocked.ancestor_eq stocked' kept grown.known_head]
  rfl

theorem Stocked.mem_blocksOf (stocked : bc.Stocked) {hash : Hash} (known : bc.Known hash) {n : ℕ}
    {b : Block} :
    b ∈ bc.blocksOf (Ancestry.path bc.parent (bc.number hash - n) hash) ↔
      n < b.number ∧ b.number ≤ bc.number hash ∧
        bc.blocks[Ancestry.ancestor bc.parent bc.number b.number hash]? = some b := by
  simp only [blocksOf, List.mem_filterMap, List.mem_reverse, Ancestry.Rooted.mem_path_iff]
  constructor
  · rintro ⟨_, ⟨m, above, low, rfl⟩, found⟩
    have number := (stocked.details_of found).1
    rw [stocked.rooted.depth_ancestor known low] at number
    subst number
    exact ⟨above, low, found⟩
  · rintro ⟨above, low, found⟩
    exact ⟨_, ⟨b.number, above, low, rfl⟩, found⟩

end Branches

section Adoption

/-- A chain with a block added to its tree as the head. -/
structure Appends (bc : BlockChain) (block : Block) (bc' : BlockChain) : Prop where
  stocked : bc'.Stocked
  kept : ∀ (hash : Hash) (b : Block), bc.blocks[hash]? = some b → bc'.blocks[hash]? = some b
  stored : bc'.blocks[block.header.hash]? = some block
  others : ∀ (hash : Hash) (b : Block), bc'.blocks[hash]? = some b →
    hash = block.header.hash ∧ b = block ∨ bc.blocks[hash]? = some b
  head : bc'.lastBlockHash = block.header.hash
  number : bc'.lastBlockNumber = block.number

/-- What becomes of the tree and of its head when a branch is adopted above a number. -/
structure Adopts (bc : BlockChain) (block : Block) (n : ℕ) (new : List Block) (bc' : BlockChain) :
    Prop extends Appends bc block bc' where
  grown : bc'.Grown
  next : block.number = bc.lastBlockNumber + 1
  turn : n ≤ bc.lastBlockNumber
  below : ∀ m ≤ n, bc'.canonical m = bc.canonical m
  branch : ∀ b, b ∈ new ↔
    n < b.number ∧ b.number ≤ block.number ∧ bc'.blocks[bc'.canonical b.number]? = some b

/-- The chain before an adoption, with its branch pushed and the queries of others answered. -/
def pushedBy (bc : BlockChain) (common : Hash) (new : List Block) (asked : List Query)
    (c : Controller) : BlockChain :=
  asked.foldl ask (((bc.begun common).bloomed new).steered c)

/-- That chain once the block and the extras of the branch are written. -/
def writtenBy (bc : BlockChain) (block : Block) (common : Hash) (new : List Block)
    (asked : List Query) (c : Controller) : BlockChain :=
  storeExtras ((bc.begun common).collected new) (store block (bc.pushedBy common new asked c))

theorem afterAdoption_eq (common : Hash) (new : List Block) (c : Controller) :
    bc.afterAdoption common new block asked c =
      setHead common block (bc.writtenBy block common new asked c) := rfl

theorem setHead_eq (common : Hash) :
    setHead common block bc =
      { bc.begun common with
        lastBlockHash := block.header.hash
        lastBlockNumber := block.number } := rfl

theorem genesisHash_begun (common : Hash) : (bc.begun common).genesisHash = bc.genesisHash := by
  unfold begun
  split <;> rfl

theorem lastBlockNumber_begun (common : Hash) :
    (bc.begun common).lastBlockNumber = bc.lastBlockNumber := by
  unfold begun
  split <;> rfl

theorem head_writtenBy (common : Hash) (new : List Block) (c : Controller) :
    (bc.writtenBy block common new asked c).lastBlockNumber = bc.lastBlockNumber ∧
      (bc.writtenBy block common new asked c).lastBlockHash = bc.lastBlockHash := by
  have asks := Asks.foldl (((bc.begun common).bloomed new).steered c) asked
  exact ⟨asks.lastBlockNumber.trans (lastBlockNumber_begun common),
    asks.lastBlockHash.trans (lastBlockHash_begun common)⟩

theorem grown_begun (grown : bc.Grown) (common : Hash) : (bc.begun common).Grown :=
  grown.of_same (blocks_begun common) (genesisHash_begun common) (lastBlockHash_begun common)
    (lastBlockNumber_begun common) (congrArg _ (detailsTable_begun common)) (by
      rw [detailsTable_begun]
      exact grown.held)

theorem grown_pushedBy (grown : bc.Grown) (common : Hash) (new : List Block) (c : Controller) :
    (bc.pushedBy common new asked c).Grown := by
  have begun := grown_begun grown common
  have pushed : (((bc.begun common).bloomed new).steered c).Grown :=
    begun.of_same rfl rfl rfl rfl rfl begun.held
  exact (Asks.foldl _ asked).grown pushed

theorem held_noteChild :
    ∃ d, (noteChild block bc).detailsTable.cache[block.header.parentHash]? = some d := by
  rw [noteChild, Cached.cache_change, if_pos rfl]
  exact ⟨_, rfl⟩

theorem appends_afterAdoption (grown : bc.Grown) (fits : bc.Fits block) (common : Hash)
    (new : List Block) (c : Controller) :
    bc.Appends block ((noteChild block bc).afterAdoption common new block asked c) := by
  -- The chain with the branch pushed is as it was, but for its caches.
  have pushed : ((noteChild block bc).pushedBy common new asked c).Grown :=
    grown_pushedBy (grown_noteChild grown fits) common new c
  have same : ((noteChild block bc).pushedBy common new asked c).blocks = bc.blocks :=
    (Asks.foldl ((((noteChild block bc).begun common).bloomed new).steered c) asked).blocks.trans
      (blocks_begun common)
  have held : ∃ d, ((noteChild block bc).pushedBy common new asked
      c).detailsTable.cache[block.header.parentHash]? = some d := by
    obtain ⟨d, held⟩ := @held_noteChild bc block
    rw [← detailsTable_begun common] at held
    exact ⟨d, (Asks.foldl _ asked).detailsTable.kept _ d held⟩
  have fits' : ((noteChild block bc).pushedBy common new asked c).Fits block := by
    constructor
    · rw [same]
      exact fits.new
    · rw [same]
      exact fits.follows
    · exact fits.bounded
  have stocked := stocked_store pushed.toStocked fits' held
  rw [afterAdoption_eq, writtenBy]
  generalize (noteChild block bc).pushedBy common new asked c = bc₁ at *
  generalize ((noteChild block bc).begun common).collected new = batch
  have blocks' : (setHead common block (storeExtras batch (store block bc₁))).blocks =
      (store block bc₁).blocks := blocks_begun common
  constructor
  case stocked =>
    refine stocked.of_same blocks' (genesisHash_begun common)
      (congrArg _ (detailsTable_begun common)) ?_
    intro hash d found
    rw [setHead_eq, detailsTable_begun] at found
    exact stocked.held hash d found
  case kept =>
    intro hash b old
    rw [← same] at old
    rw [blocks']
    exact fits'.blocks_store_of_some old
  case stored => rw [blocks', blocks_store, if_pos rfl]
  case others =>
    intro hash b found
    rw [blocks', blocks_store] at found
    split at found
    · next new =>
      cases found
      exact .inl ⟨new, rfl⟩
    · rw [same] at found
      exact .inr found
  case head => rfl
  case number => rfl

namespace Appends

theorem canonical_self (appends : bc.Appends block bc') :
    bc'.canonical block.number = block.header.hash := by
  rw [← (appends.stocked.details_of appends.stored).1, canonical, appends.head]
  exact Ancestry.Rooted.ancestor_self

theorem canonical_of_lt (appends : bc.Appends block bc') (grown : bc.Grown)
    (fits : bc.Fits block) {m : ℕ} (low : m < block.number) :
    bc'.canonical m = Ancestry.ancestor bc.parent bc.number m block.header.parentHash := by
  obtain ⟨above, found, -⟩ := fits.follows
  obtain ⟨number, parent⟩ := appends.stocked.details_of appends.stored
  rw [canonical, appends.head, ← appends.stocked.rooted.ancestor_parent ⟨block, appends.stored⟩
    (by rw [number]; exact low), parent,
    grown.toStocked.ancestor_eq appends.stocked appends.kept ⟨above, found⟩]

theorem grown (appends : bc.Appends block bc') (grown : bc.Grown) (fits : bc.Fits block)
    (higher : bc.lastBlockNumber < block.number) : bc'.Grown where
  toStocked := appends.stocked
  low := by
    intro hash b found
    rw [appends.number]
    obtain ⟨-, rfl⟩ | old := appends.others hash b found
    · exact Nat.le_refl _
    · exact Nat.le_of_lt ((grown.low hash b old).trans_lt higher)
  head := ⟨block, appends.head ▸ appends.stored, appends.number.symm⟩
  bounded := by
    rw [appends.number]
    exact fits.bounded

end Appends

/-- Adopting a branch makes its blocks canonical above the block where it leaves the chain. -/
theorem Grown.adopts (grown : bc.Grown) (fits : bc.Fits block)
    (higher : bc.lastBlockNumber < block.number) {route : Ancestry.Route Hash}
    (routed : bc.treeRoute bc.lastBlockHash block.header.parentHash = some route)
    (appends : bc.Appends block bc') :
    ∃ n, bc.number route.common = n ∧ bc.irreversibleBlockNum ≤ n ∧
      bc.canonical n = route.common ∧
      bc.Adopts block n (bc.blocksOf route.fresh ++ [block]) bc' := by
  obtain ⟨n, turns⟩ := Ancestry.Rooted.route_eq_some routed
  obtain ⟨above, found, next⟩ := fits.follows
  have known : bc.Known block.header.parentHash := ⟨above, found⟩
  have low := grown.low _ above found
  have height : bc.number block.header.parentHash = bc.lastBlockNumber := by
    rw [(grown.details_of found).1]
    omega
  have turn : n ≤ bc.lastBlockNumber := height ▸ turns.right
  refine ⟨n, ?_, turns.floor, turns.above, { appends with
    grown := appends.grown grown fits higher, next := by omega, turn := turn, below := ?_,
    branch := ?_ }⟩
  · rw [← turns.above, grown.rooted.depth_ancestor grown.known_head turns.left]
  · -- Up to the common block the two branches are one.
    intro m belowTurn
    rw [appends.canonical_of_lt grown fits (by omega), canonical,
      ← grown.rooted.ancestor_ancestor known belowTurn turns.right, turns.beyond, ← turns.above,
      grown.rooted.ancestor_ancestor grown.known_head belowTurn turns.left]
  · intro b
    rw [List.mem_append, List.mem_singleton, turns.fresh, grown.mem_blocksOf known, height]
    constructor
    · rintro (⟨above', low', stored⟩ | rfl)
      · refine ⟨above', by omega, ?_⟩
        rw [appends.canonical_of_lt grown fits (by omega)]
        exact appends.kept _ b stored
      · refine ⟨by omega, Nat.le_refl _, ?_⟩
        rw [appends.canonical_self]
        exact appends.stored
    · rintro ⟨above', low', stored⟩
      by_cases last : b.number = block.number
      · rw [last, appends.canonical_self, appends.stored] at stored
        cases stored
        exact .inr rfl
      · have lower : b.number < block.number := by omega
        rw [appends.canonical_of_lt grown fits lower] at stored
        obtain ⟨same, -⟩ | old := appends.others _ b stored
        · have there := grown.rooted.known_ancestor known b.number
          rw [same] at there
          obtain ⟨_, there⟩ := there
          rw [fits.new] at there
          cases there
        · exact .inl ⟨above', by omega, old⟩

end Adoption

section Runs

theorem grown_afterRejection (grown : bc.Grown) (common : Hash) (done redone : List Block)
    (d : Controller) : (bc.afterRejection common done redone d).Grown := by
  have begun := grown_begun grown common
  exact begun.of_same rfl rfl rfl rfl rfl begun.held

theorem grown_aside (grown : bc.Grown) (fits : bc.Fits block)
    (low : block.number ≤ bc.lastBlockNumber) : (store block (noteChild block bc)).Grown := by
  have noted := grown_noteChild grown fits
  have fits' : (noteChild block bc).Fits block := ⟨fits.new, fits.follows, fits.bounded⟩
  constructor
  · exact stocked_store noted.toStocked fits' held_noteChild
  · intro hash b found
    rw [blocks_store] at found
    split at found
    · cases found
      exact low
    · exact grown.low hash b found
  · obtain ⟨b, found, number⟩ := grown.head
    exact ⟨b, fits'.blocks_store_of_some found, number⟩
  · exact grown.bounded

theorem Imported.grown (imported : Imported bc block asked bc') (grown : bc.Grown) : bc'.Grown := by
  cases imported with
  | refused => exact grown
  | unrouted fits => exact grown_noteChild grown fits
  | aside fits low => exact grown_aside grown fits low
  | rejected fits => exact grown_afterRejection (grown_noteChild grown fits) _ _ _ _
  | adopted fits higher =>
    exact (appends_afterAdoption grown fits _ _ _).grown grown fits higher

theorem Imported.keeps (imported : Imported bc block asked bc') (grown : bc.Grown) :
    bc'.genesisHash = bc.genesisHash ∧
      ∀ (hash : Hash) (b : Block), bc.blocks[hash]? = some b → bc'.blocks[hash]? = some b := by
  cases imported with
  | refused => exact ⟨rfl, fun _ _ found => found⟩
  | unrouted fits => exact ⟨rfl, fun _ _ found => found⟩
  | aside fits low =>
    have fits' : (noteChild block bc).Fits block := ⟨fits.new, fits.follows, fits.bounded⟩
    exact ⟨rfl, fun _ _ found => fits'.blocks_store_of_some found⟩
  | @rejected fits higher route done redone d routed how =>
    refine ⟨genesisHash_begun route.common, ?_⟩
    intro hash b found
    rw [← found]
    exact congrArg (·[hash]?) (blocks_begun route.common)
  | @adopted fits higher route c₀ c routed began pushed =>
    refine ⟨?_, (appends_afterAdoption grown fits _ _ _).kept⟩
    have asks := Asks.foldl ((((noteChild block bc).begun route.common).bloomed
      (bc.blocksOf route.fresh ++ [block])).steered c) asked
    rw [afterAdoption_eq, setHead_eq]
    exact (genesisHash_begun route.common).trans
      (asks.genesisHash.trans (genesisHash_begun route.common))

theorem Grown.call {call : Call} (grown : bc.Grown) (called : bc.call call = some bc') :
    bc'.Grown := by
  cases call with
  | importBlock block asked => exact (imported_of_receive grown called).grown grown
  | ask query =>
    cases called
    exact (Asks.ask bc query).grown grown
  | garbageCollect =>
    cases called
    exact grown_garbageCollect grown

theorem grown_start {genesis : Block} {initialProducers : List Address}
    (started : start genesis initialProducers = some bc) : bc.Grown := by
  unfold start at started
  split at started
  · cases started
  · next first =>
    obtain ⟨c, -, made⟩ := Option.bind_eq_some_iff.mp started
    cases made
    have zero : genesis.header.number = 0 := by
      by_contra other
      exact first (.inl other)
    have null : genesis.header.parentHash = 0 := by
      by_contra other
      exact first (.inr other)
    have number : genesis.number = 0 := by rw [Block.number, zero]; rfl
    -- There is nothing stored but the genesis block.
    have only : ∀ (V : Type) (v w : V) (hash : Hash),
        ((∅ : Std.ExtTreeMap Hash V).insert genesis.header.hash v)[hash]? = some w →
          hash = genesis.header.hash ∧ w = v := by
      intro V v w hash found
      rw [Std.ExtTreeMap.getElem?_insert] at found
      split at found
      · next same =>
        cases found
        exact ⟨(Std.LawfulEqCmp.eq_of_compare same).symm, rfl⟩
      · simp at found
    constructor
    · constructor
      case named =>
        intro hash b found
        obtain ⟨rfl, rfl⟩ := only _ _ _ _ found
        rfl
      case noted =>
        intro hash b found
        obtain ⟨rfl, rfl⟩ := only _ _ _ _ found
        exact ⟨_, Std.ExtTreeMap.getElem?_insert_self⟩
      case stored =>
        intro hash d found
        obtain ⟨rfl, rfl⟩ := only _ _ _ _ found
        exact ⟨genesis, Std.ExtTreeMap.getElem?_insert_self, number.symm, null.symm⟩
      case held =>
        intro hash d found
        simp at found
      case genesis => exact ⟨genesis, Std.ExtTreeMap.getElem?_insert_self, number⟩
      case linked =>
        intro hash b found other
        exact absurd (only _ _ _ _ found).1 other
    · intro hash b found
      obtain ⟨rfl, rfl⟩ := only _ _ _ _ found
      exact number.le
    · exact ⟨genesis, Std.ExtTreeMap.getElem?_insert_self, number⟩
    · norm_num

theorem Grown.calls {cs : List Call} (grown : bc.Grown) (ran : bc.calls cs = some bc') :
    bc'.Grown := by
  induction cs generalizing bc with
  | nil =>
    cases ran
    exact grown
  | cons call rest ih =>
    obtain ⟨mid, first, others⟩ := Option.bind_eq_some_iff.mp ran
    exact ih (grown.call first) others

theorem keeps_calls {cs : List Call} (grown : bc.Grown) (ran : bc.calls cs = some bc') :
    bc'.genesisHash = bc.genesisHash ∧
      ∀ (hash : Hash) (b : Block), bc.blocks[hash]? = some b → bc'.blocks[hash]? = some b := by
  induction cs generalizing bc with
  | nil =>
    cases ran
    exact ⟨rfl, fun _ _ found => found⟩
  | cons call rest ih =>
    obtain ⟨mid, first, others⟩ := Option.bind_eq_some_iff.mp ran
    obtain ⟨genesis, kept⟩ := ih (grown.call first) others
    have step : mid.genesisHash = bc.genesisHash ∧
        ∀ (hash : Hash) (b : Block), bc.blocks[hash]? = some b → mid.blocks[hash]? = some b := by
      cases call with
      | importBlock block asked => exact (imported_of_receive grown first).keeps grown
      | ask query =>
        cases first
        have asks := Asks.ask bc query
        exact ⟨asks.genesisHash, fun hash b found => by rw [asks.blocks]; exact found⟩
      | garbageCollect =>
        cases first
        exact ⟨rfl, fun _ _ found => found⟩
    exact ⟨genesis.trans step.1, fun hash b found => kept hash b (step.2 hash b found)⟩

end Runs

end BlockChain

end Etiam
