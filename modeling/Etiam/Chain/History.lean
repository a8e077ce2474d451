import Etiam.Chain.Canonical
import Etiam.Library.Exec

/-! What imports leave behind does not depend on what is asked and cached before and meanwhile, a
stored block is never imported again, and the head only gives way to a higher block. -/

namespace Etiam

namespace BlockChain

open Exec

variable {bc bd : BlockChain} {block : Block} {asked : List Query}

/-- Two chains that differ in what is held in memory at most, and in the stored blooms and places
of transactions. -/
structure Same (bc bd : BlockChain) : Prop where
  blocks : bd.blocks = bc.blocks
  genesisHash : bd.genesisHash = bc.genesisHash
  lastBlockHash : bd.lastBlockHash = bc.lastBlockHash
  lastBlockNumber : bd.lastBlockNumber = bc.lastBlockNumber
  chainController : bd.chainController = bc.chainController
  store : bd.blockHashes.store = bc.blockHashes.store

/-- Two such chains that give the same answers. -/
structure Near (bc bd : BlockChain) : Prop extends Same bc bd where
  number : bd.number = bc.number
  parent : bd.parent = bc.parent
  look : bd.look = bc.look
  coherent : bc.blockHashes.Coherent ∧ bd.blockHashes.Coherent

theorem Same.refl (bc : BlockChain) : Same bc bc := ⟨rfl, rfl, rfl, rfl, rfl, rfl⟩

theorem Same.look (same : Same bc bd)
    (coherent : bc.blockHashes.Coherent ∧ bd.blockHashes.Coherent) : bd.look = bc.look := by
  funext n
  rw [BlockChain.look, BlockChain.look, numberHash, numberHash, coherent.1.find_eq,
    coherent.2.find_eq, same.store, same.genesisHash]

theorem Stocked.details_of_none (stocked : bc.Stocked) {hash : Hash}
    (missing : bc.blocks[hash]? = none) : bc.details hash = .null := by
  -- Neither what is stored nor what is held tells about a block that is not there.
  have untold : ∀ d, ¬ bc.Tells hash d := by
    rintro d ⟨b, found, -⟩
    rw [missing] at found
    cases found
  have unstored := Option.eq_none_iff_forall_ne_some.mpr fun d noted =>
    untold d (stocked.stored hash d noted)
  have unheld := Option.eq_none_iff_forall_ne_some.mpr fun d noted =>
    untold d (stocked.held hash d noted)
  rw [details, Cached.find, unstored, unheld]
  rfl

/-- Over the same blocks, whatever is cached of them, the answers are the same. -/
theorem Same.near (same : Same bc bd) (grown : bc.Grown ∧ bd.Grown)
    (indexed : bc.Indexed ∧ bd.Indexed) : Near bc bd := by
  have answers : ∀ hash, bd.number hash = bc.number hash ∧ bd.parent hash = bc.parent hash := by
    intro hash
    cases found : bc.blocks[hash]? with
    | some b =>
      refine grown.1.toStocked.agree grown.2.toStocked (fun _ _ => ?_) ⟨b, found⟩
      rw [same.blocks]
      exact id
    | none =>
      have missing : bd.blocks[hash]? = none := by rw [same.blocks, found]
      simp only [BlockChain.number, BlockChain.parent, grown.1.details_of_none found,
        grown.2.details_of_none missing, and_self]
  have coherent := And.intro indexed.1.coherent indexed.2.coherent
  exact { same with
    number := funext fun hash => (answers hash).1
    parent := funext fun hash => (answers hash).2
    look := same.look coherent
    coherent }

theorem run_revertTo (common : Hash) : (revertTo common).run bc =
    match Database.databaseReversion (BitVec.ofNat 32 (bc.number common)) bc.chainController.db with
    | .error halt => .error halt (bc.cleared common)
    | .ok db =>
      match bc.blocks[common]? with
      | none => .error .thrown ((bc.cleared common).steered { bc.chainController with db })
      | some block => .ok () ((bc.cleared common).steered (Controller.initAllvotes
          block.header.number block.view.votes { bc.chainController with db })) := rfl

namespace Near

section

variable (near : Near bc bd)

include near

theorem steered (c : Controller) : Near (bc.steered c) (bd.steered c) :=
  { near with chainController := rfl }

theorem cleared (common : Hash) : Near (bc.cleared common) (bd.cleared common) := by
  have same : Same (bc.cleared common) (bd.cleared common) := { near with }
  have coherent := And.intro (coherent_cleared near.coherent.1 common)
    (coherent_cleared near.coherent.2 common)
  exact { near with look := same.look coherent, coherent }

theorem onController {α : Type} (x : EStateM Failure Controller α) :
    Ends Eq Near ((onController x).run bc) ((onController x).run bd) := by
  rw [run_onController, run_onController, near.look, near.chainController]
  cases x.run _ with
  | ok a c => exact .ok rfl (near.steered c)
  | error e c => cases e <;> exact .error _ (near.steered c)

theorem revertTo (common : Hash) :
    Ends Eq Near ((revertTo common).run bc) ((revertTo common).run bd) := by
  have cleared := near.cleared common
  rw [run_revertTo, run_revertTo, near.number, near.chainController, near.blocks]
  cases Database.databaseReversion _ _ with
  | error halt => exact .error halt cleared
  | ok db =>
    dsimp only
    cases bc.blocks[common]? with
    | none => exact .error _ (cleared.steered _)
    | some block => exact .ok rfl (cleared.steered _)

theorem pushBlock (block : Block) :
    Ends Eq Near ((pushBlock block).run bc) ((pushBlock block).run bd) := by
  have parent : bd.infoParentHash = bc.infoParentHash := by
    rw [infoParentHash, infoParentHash, near.blocks, near.lastBlockHash]
  rw [BlockChain.pushBlock, run_get_bind, run_get_bind, parent]
  exact (near.onController _).bind fun _ near => .ok rfl { near with }

/-- The numbers that a branch is to be listed under do not depend on what is cached. -/
theorem pushBranch (branch : List Block) :
    Ends (fun a b => b.blockHashes = a.blockHashes) Near ((pushBranch branch).run bc)
      ((pushBranch branch).run bd) := by
  induction branch generalizing bc bd with
  | nil => exact .ok rfl near
  | cons block rest ih =>
    refine (near.pushBlock block).bind fun _ near => (ih near).bind fun same near => .ok ?_ near
    exact congrArg ((block.number, block.header.hash) :: ·) same

end

theorem catching {α : Type} {V : α → α → Prop} {x handler : ChainM α}
    (body : Ends V Near (x.run bc) (x.run bd))
    (handled : ∀ {s t}, Near s t → Ends V Near (handler.run s) (handler.run t)) :
    Ends V Near ((catching x handler).run bc) ((catching x handler).run bd) := by
  unfold BlockChain.catching
  generalize ran : x.run bc = r, ran' : x.run bd = q at body
  cases body with
  | ok value near =>
    rw [tryCatch_ok ran, tryCatch_ok ran']
    exact .ok value near
  | error e near =>
    rw [tryCatch_error ran, tryCatch_error ran']
    cases e with
    | thrown => exact handled near
    | endless => exact .error _ near
    | undefined => exact .error _ near

theorem enactBranch (near : Near bc bd) (common : Hash) (old new : List Block) :
    Ends (Option.Rel fun a b => b.blockHashes = a.blockHashes) Near
      ((enactBranch common old new).run bc) ((enactBranch common old new).run bd) := by
  rw [BlockChain.enactBranch, run_get_bind, run_get_bind, near.lastBlockHash]
  dsimp only
  -- With and without a reversion before it, the branch is pushed in the same way.
  split
  on_goal 1 => refine (near.revertTo common).bind fun _ near => ?_
  all_goals
    refine catching ?_ fun near => ?_
    · exact (near.pushBranch new).bind fun same near => .ok (.some same) near
    · refine (near.revertTo common).bind fun _ near => ?_
      exact (near.pushBranch old).bind fun _ near => .ok .none near

end Near

namespace Same

theorem asks {bc' : BlockChain} (same : Same bc bd) (asks : Asks bc bc') : Same bc' bd where
  blocks := same.blocks.trans asks.blocks.symm
  genesisHash := same.genesisHash.trans asks.genesisHash.symm
  lastBlockHash := same.lastBlockHash.trans asks.lastBlockHash.symm
  lastBlockNumber := same.lastBlockNumber.trans asks.lastBlockNumber.symm
  chainController := same.chainController.trans asks.chainController.symm
  store := same.store.trans asks.blockHashes.store.symm

theorem begun (bc : BlockChain) (common : Hash) : Same bc (bc.begun common) := by
  unfold BlockChain.begun
  split
  · exact ⟨rfl, rfl, rfl, rfl, rfl, rfl⟩
  · exact refl bc

/-- An adoption that lists the same numbers leaves the same. -/
theorem setHead (same : Same bc bd) {a b : ExtrasBatch} (listed : b.blockHashes = a.blockHashes)
    (common : Hash) (block : Block) :
    Same (setHead common block (storeExtras a (BlockChain.store block bc)))
      (setHead common block (storeExtras b (BlockChain.store block bd))) := by
  have left := begun (storeExtras a (BlockChain.store block bc)) common
  have right := begun (storeExtras b (BlockChain.store block bd)) common
  rw [setHead_eq, setHead_eq]
  refine ⟨?_, ?_, rfl, rfl, ?_, ?_⟩
  · refine right.blocks.trans (Eq.trans ?_ left.blocks.symm)
    exact congrArg (·.insert block.header.hash block) same.blocks
  · exact right.genesisHash.trans (same.genesisHash.trans left.genesisHash.symm)
  · exact right.chainController.trans (same.chainController.trans left.chainController.symm)
  · refine right.store.trans (Eq.trans ?_ left.store.symm)
    change (bd.blockHashes.write b.blockHashes).store = (bc.blockHashes.write a.blockHashes).store
    rw [listed]
    exact Cached.store_write_congr same.store _

end Same

/-- Inserting a block leaves the same whatever is cached, and whatever is asked meanwhile. -/
theorem Near.insertBlockAndExtras (near : Near bc bd) (block : Block) (asked : List Query) :
    Ends (fun _ _ => True) Same ((insertBlockAndExtras block asked).run bc)
      ((insertBlockAndExtras block []).run bd) := by
  have noted : Near (noteChild block bc) (noteChild block bd) := { near with
    number := by rw [number_noteChild, number_noteChild, near.number]
    parent := by rw [parent_noteChild, parent_noteChild, near.parent] }
  rw [BlockChain.insertBlockAndExtras, BlockChain.insertBlockAndExtras, run_modify_bind,
    run_modify_bind, run_get_bind, run_get_bind, noted.lastBlockNumber]
  split
  · rw [treeRoute, treeRoute, irreversibleBlockNum, irreversibleBlockNum, noted.parent,
      noted.number, noted.chainController, noted.lastBlockHash]
    split
    · exact .ok trivial noted.toSame
    · next route found =>
      rw [noted.blocks]
      refine ((Near.catching (noted.enactBranch ..) fun near => .ok .none near).mono
        fun near => near.toSame).bind fun listed same => ?_
      cases listed with
      | none => exact .ok trivial same
      | some listed =>
        exact .ok trivial ((same.asks (Asks.foldl _ asked)).setHead listed route.common block)
  · refine .ok trivial { noted.toSame with blocks := ?_ }
    exact congrArg (·.insert block.header.hash block) near.blocks

theorem Stocked.isKnown_eq (stocked : bc.Stocked) (hash : Hash) (current : Bool) :
    bc.isKnown hash current = (hash == bc.genesisHash ||
      bc.blocks.contains hash && (!current || bc.number hash ≤ bc.lastBlockNumber)) := by
  unfold isKnown
  cases stored : bc.blocks.contains hash with
  | false => simp
  | true =>
    obtain ⟨b, found⟩ := Option.isSome_iff_exists.mp
      (Std.ExtTreeMap.contains_eq_isSome_getElem?.symm.trans stored)
    obtain ⟨d, noted⟩ := stocked.noted hash b found
    have answered : (bc.detailsTable.find hash).isSome = true := by simp [Cached.find, noted]
    simp [answered]

/-- An import ends alike, and leaves the same, whatever is cached and asked. -/
theorem Near.receive (near : Near bc bd) (grown : bc.Grown ∧ bd.Grown) (block : Block)
    (asked : List Query) :
    Option.Rel Same (bc.receive block asked) (bd.receive block []) := by
  have known : ∀ hash current, bd.isKnown hash current = bc.isKnown hash current := by
    intro hash current
    rw [grown.1.isKnown_eq, grown.2.isKnown_eq, near.genesisHash, near.blocks, near.number,
      near.lastBlockNumber]
  have imported : Ends (fun _ _ => True) Same ((importBlock block asked).run bc)
      ((importBlock block []).run bd) := by
    rw [importBlock, importBlock, run_get_bind, run_get_bind, known, known, near.blocks]
    dsimp only
    -- Each of the checks ends both imports or none.
    iterate 4
      split
      · exact .error _ near.toSame
    exact near.insertBlockAndExtras block asked
  unfold BlockChain.receive
  generalize (importBlock block asked).run bc = r, (importBlock block []).run bd = q at imported ⊢
  cases imported with
  | ok _ same => exact .some same
  | error e same =>
    cases e with
    | thrown => exact .some same
    | endless => exact .none
    | undefined => exact .none

/-- The imports of a run, with nothing asked before, between and during them. -/
def quiet (cs : List Call) : List Call :=
  cs.filterMap fun call =>
    match call with
    | .importBlock block _ => some (.importBlock block [])
    | .ask _ => none
    | .garbageCollect => none

section Growth

variable {bc' : BlockChain}

theorem Imported.rises (imported : Imported bc block asked bc') :
    bc'.lastBlockHash = bc.lastBlockHash ∧ bc'.lastBlockNumber = bc.lastBlockNumber ∨
      bc.lastBlockNumber < bc'.lastBlockNumber := by
  cases imported with
  | refused => exact .inl ⟨rfl, rfl⟩
  | unrouted => exact .inl ⟨rfl, rfl⟩
  | aside => exact .inl ⟨rfl, rfl⟩
  | @rejected _ _ route =>
    exact .inl ⟨lastBlockHash_begun route.common, lastBlockNumber_begun route.common⟩
  | adopted _ higher => exact .inr higher

/-- The head stays, or gives way to a higher block. -/
theorem Grown.rises {cs : List Call} (grown : bc.Grown) (ran : bc.calls cs = some bc') :
    bc'.lastBlockHash = bc.lastBlockHash ∧ bc'.lastBlockNumber = bc.lastBlockNumber ∨
      bc.lastBlockNumber < bc'.lastBlockNumber := by
  induction cs generalizing bc with
  | nil =>
    cases ran
    exact .inl ⟨rfl, rfl⟩
  | cons call rest ih =>
    obtain ⟨mid, first, others⟩ := Option.bind_eq_some_iff.mp ran
    have step : mid.lastBlockHash = bc.lastBlockHash ∧
        mid.lastBlockNumber = bc.lastBlockNumber ∨ bc.lastBlockNumber < mid.lastBlockNumber := by
      cases call with
      | importBlock block asked => exact (imported_of_receive grown first).rises
      | ask query =>
        cases first
        exact .inl ⟨(Asks.ask bc query).lastBlockHash, (Asks.ask bc query).lastBlockNumber⟩
      | garbageCollect =>
        cases first
        exact .inl ⟨rfl, rfl⟩
    obtain ⟨hash, number⟩ | higher := ih (grown.call first) others
    · rw [hash, number]
      exact step
    · obtain ⟨-, number⟩ | lower := step
      · exact .inr (number ▸ higher)
      · exact .inr (lower.trans higher)

/-- A block that is stored stays and is refused ever after, which leaves the chain as it is, and
the head never gives way to a block as low as itself. -/
theorem stored_once_and_first_seen {genesis : Block} {initialProducers : List Address}
    {first : BlockChain} (started : start genesis initialProducers = some first)
    {cs more : List Call} (ran : first.calls cs = some bc) (went : bc.calls more = some bc') :
    (∀ (block b : Block), bc.blocks[block.header.hash]? = some b →
      bc'.blocks[block.header.hash]? = some b ∧
        ∀ asked, (importBlock block asked).run bc' = .error .thrown bc') ∧
      (bc'.lastBlockNumber ≤ bc.lastBlockNumber →
        bc'.lastBlockHash = bc.lastBlockHash ∧ bc'.lastBlockNumber = bc.lastBlockNumber) := by
  have grown := (grown_start started).calls ran
  have grown' := grown.calls went
  constructor
  · intro block b stored
    have kept := (keeps_calls grown went).2 _ b stored
    have lower : bc'.number block.header.hash ≤ bc'.lastBlockNumber := by
      rw [(grown'.details_of kept).1]
      exact grown'.low _ b kept
    have known : bc'.isKnown block.header.hash true = true := by
      simp [grown'.isKnown_eq, ← Std.ExtTreeMap.isSome_getElem?_eq_contains, kept, lower]
    refine ⟨kept, fun asked => ?_⟩
    rw [importBlock, run_get_bind, known]
    rfl
  · intro low
    obtain same | higher := grown.rises went
    · exact same
    · omega

/-- The block beside the chain of a small run is refused when it comes again. -/
theorem stored_once_and_first_seen_switched :
    ∃ bc, (start sampleGenesis [100, 200]).bind (·.calls switching) = some bc ∧
      ∃ b, bc.blocks[(11 : Hash)]? = some b ∧
        (importBlock b []).run bc = .error .thrown bc := by
  have ran : ((start sampleGenesis [100, 200]).bind (·.calls switching)).map
      (fun bc => (bc.blocks[(11 : Hash)]?).map (·.header.hash)) = some (some 11) := by
    decide +kernel
  obtain ⟨bc, reached, found⟩ := Option.map_eq_some_iff.mp ran
  obtain ⟨first, started, run⟩ := Option.bind_eq_some_iff.mp reached
  obtain ⟨b, stored, named⟩ := Option.map_eq_some_iff.mp found
  have kept := (stored_once_and_first_seen started run (show bc.calls [] = some bc from rfl)).1 b b
  rw [named] at kept
  exact ⟨bc, reached, b, stored, (kept stored).2 []⟩

end Growth

end BlockChain

end Etiam
