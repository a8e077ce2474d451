import Etiam.Chain.BlockChain
import Etiam.Library.Exec

/-! What an import can do to a chain whose blocks form a tree. -/

namespace Etiam

namespace BlockChain

open Exec

/-- Whether a block is stored. -/
def Known (bc : BlockChain) (hash : Hash) : Prop := ∃ block : Block, bc.blocks[hash]? = some block

/-- An entry of the details tells about the block that is stored under its hash. -/
def Tells (bc : BlockChain) (hash : Hash) (details : BlockDetails) : Prop :=
  ∃ block : Block, bc.blocks[hash]? = some block ∧ details.number = block.number ∧
    details.parent = block.header.parentHash

/-- The stored blocks form a tree below the first one. -/
structure Stocked (bc : BlockChain) : Prop where
  named : ∀ (hash : Hash) (block : Block), bc.blocks[hash]? = some block →
    block.header.hash = hash
  noted : ∀ (hash : Hash) (block : Block), bc.blocks[hash]? = some block →
    ∃ d, bc.detailsTable.store[hash]? = some d
  stored : ∀ (hash : Hash) d, bc.detailsTable.store[hash]? = some d → bc.Tells hash d
  held : ∀ (hash : Hash) d, bc.detailsTable.cache[hash]? = some d → bc.Tells hash d
  genesis : ∃ block : Block, bc.blocks[bc.genesisHash]? = some block ∧ block.number = 0
  linked : ∀ (hash : Hash) (block : Block), bc.blocks[hash]? = some block →
    hash ≠ bc.genesisHash → ∃ above : Block,
      bc.blocks[block.header.parentHash]? = some above ∧ block.number = above.number + 1

/-- The stored blocks form a tree, and none of them is higher than the head. -/
structure Grown (bc : BlockChain) : Prop extends Stocked bc where
  low : ∀ (hash : Hash) (block : Block), bc.blocks[hash]? = some block →
    block.number ≤ bc.lastBlockNumber
  head : ∃ block : Block, bc.blocks[bc.lastBlockHash]? = some block ∧
    block.number = bc.lastBlockNumber
  bounded : bc.lastBlockNumber < 2 ^ 32

/-- A block that can be inserted: it is new, and follows a block that is stored. -/
structure Fits (bc : BlockChain) (block : Block) : Prop where
  new : bc.blocks[block.header.hash]? = none
  follows : ∃ above : Block, bc.blocks[block.header.parentHash]? = some above ∧
    block.number = above.number + 1
  bounded : block.number < 2 ^ 32

/-- Pushing blocks to the chain controller one after another. -/
inductive Pushed (look : U32 → Hash) (lastBlockId : Hash) :
    Controller → List Block → Controller → Prop
  | nil (c : Controller) : Pushed look lastBlockId c [] c
  | cons {c d e : Controller} {block : Block} {rest : List Block}
      (first : (Controller.pushBlock lastBlockId block.view block.header).run
        { c with numberHash := look } = .ok () d)
      (others : Pushed look lastBlockId d rest e) :
      Pushed look lastBlockId c (block :: rest) e

/-- Pushing blocks until one of them is refused. -/
structure Stuck (look : U32 → Hash) (lastBlockId : Hash) (c : Controller) (branch : List Block)
    (done : List Block) (d : Controller) : Prop where
  stops : ∃ block rest mid failure, branch = done ++ block :: rest ∧
    Pushed look lastBlockId c done mid ∧
    (Controller.pushBlock lastBlockId block.view block.header).run
      { mid with numberHash := look } = .error failure d ∧ failure ≠ .undefinedBehaviour

/-- The chain controller put back to a block. -/
structure Reverted (bc : BlockChain) (common : Hash) (c d : Controller) : Prop where
  put : ∃ db block,
    Database.databaseReversion (BitVec.ofNat 32 (bc.number common)) c.db = .ok db ∧
    bc.blocks[common]? = some block ∧
    d = Controller.initAllvotes block.header.number block.view.votes { c with db }

section Effects

variable (bc : BlockChain)

/-- The hashes as the chain controller looks them up. -/
def look (n : U32) : Hash := bc.numberHash n.toNat

/-- The chain with another chain controller. -/
def steered (c : Controller) : BlockChain := { bc with chainController := c }

/-- The chain with the blooms of a branch added in memory. -/
def bloomed (branch : List Block) : BlockChain :=
  { bc with
    blocksBlooms := branch.foldl
      (fun c block => BloomIndex.addBloom block.number block.blockBloom c) bc.blocksBlooms }

/-- The chain with its caches cleared above a block. -/
def cleared (common : Hash) : BlockChain :=
  clearCachesDuringChainReversion (bc.number common + 1) bc

/-- The chain as a branch is pushed to it: cleared above a block that is not the head. -/
def begun (common : Hash) : BlockChain :=
  if common ≠ bc.lastBlockHash then bc.cleared common else bc

/-- What pushing a branch collects. -/
def collected (bc : BlockChain) : List Block → ExtrasBatch
  | [] => .empty
  | block :: rest =>
    (collate block (bc.bloomed [block])).append (collected (bc.bloomed [block]) rest)

/-- The blocks of a list of hashes, first the last. -/
def blocksOf (hashes : List Hash) : List Block := hashes.reverse.filterMap (bc.blocks[·]?)

/-- The controller from before a branch is pushed, after what has to be undone. -/
def Begins (common : Hash) (c d : Controller) : Prop :=
  if common ≠ bc.lastBlockHash then bc.Reverted common c d else d = c

end Effects

variable {bc bc' : BlockChain} {block : Block} {asked : List Query}

namespace Stocked

theorem details_of (grown : bc.Stocked) {hash : Hash} {b : Block}
    (found : bc.blocks[hash]? = some b) :
    bc.number hash = b.number ∧ bc.parent hash = b.header.parentHash := by
  -- Whether it comes from memory or not, an answer tells about the stored block.
  obtain ⟨d, noted⟩ := grown.noted hash b found
  have told : ∃ e, bc.detailsTable.find hash = some e ∧ bc.Tells hash e := by
    unfold Cached.find
    cases held : bc.detailsTable.cache[hash]? with
    | some e => exact ⟨e, rfl, grown.held hash e held⟩
    | none => exact ⟨d, by simpa using noted, grown.stored hash d noted⟩
  obtain ⟨e, answered, b', found', number, parent⟩ := told
  rw [found] at found'
  cases found'
  simp [BlockChain.number, BlockChain.parent, details, answered, number, parent]

theorem rooted (grown : bc.Stocked) :
    Ancestry.Rooted bc.Known bc.parent bc.number bc.genesisHash where
  known_root := by
    obtain ⟨b, found, -⟩ := grown.genesis
    exact ⟨b, found⟩
  depth_root := by
    obtain ⟨b, found, first⟩ := grown.genesis
    rw [(grown.details_of found).1, first]
  step := by
    rintro hash ⟨b, found⟩ other
    obtain ⟨above, stored, next⟩ := grown.linked hash b found other
    obtain ⟨number, parent⟩ := grown.details_of found
    rw [parent, number, next, (grown.details_of stored).1]
    exact ⟨⟨above, stored⟩, rfl⟩

end Stocked

namespace Grown

theorem known_head (grown : bc.Grown) : bc.Known bc.lastBlockHash := by
  obtain ⟨b, found, -⟩ := grown.head
  exact ⟨b, found⟩

theorem number_head (grown : bc.Grown) : bc.number bc.lastBlockHash = bc.lastBlockNumber := by
  obtain ⟨b, found, number⟩ := grown.head
  rw [(grown.details_of found).1, number]

/-- A block that is turned away for what is known has to be new and to follow a stored one. -/
theorem fits_of_checks (grown : bc.Grown) {above : Block}
    (new : bc.isKnown block.header.hash true = false)
    (stored : bc.blocks[block.header.parentHash]? = some above)
    (verified : verify above.header block.header = true) : bc.Fits block := by
  simp only [verify, Bool.and_eq_true, decide_eq_true_eq] at verified
  obtain ⟨⟨bounded, next⟩, -⟩ := verified
  have low := grown.low _ above stored
  have high := grown.bounded
  refine ⟨?_, ⟨above, stored, ?_⟩, bounded⟩
  · by_contra present
    obtain ⟨b, found⟩ := Option.ne_none_iff_exists'.mp present
    obtain ⟨d, noted⟩ := grown.noted _ b found
    have answered : (bc.detailsTable.find block.header.hash).isSome = true := by
      unfold Cached.find
      cases bc.detailsTable.cache[block.header.hash]? with
      | some e => rfl
      | none => simp [noted]
    have lower : bc.number block.header.hash ≤ bc.lastBlockNumber := by
      rw [(grown.details_of found).1]
      exact grown.low _ b found
    have contained : bc.blocks.contains block.header.hash = true := by
      simp [← Std.ExtTreeMap.isSome_getElem?_eq_contains, found]
    simp [isKnown, contained, answered, lower] at new
  · simp only [Block.number] at low ⊢
    rw [next, BitVec.toNat_add]
    have one : (1 : U256).toNat = 1 := rfl
    rw [one, Nat.mod_eq_of_lt]
    omega

end Grown

section NoteChild

theorem details_noteChild (hash : Hash) :
    ((noteChild block bc).details hash).number = (bc.details hash).number ∧
      ((noteChild block bc).details hash).parent = (bc.details hash).parent := by
  simp only [details, noteChild, Cached.find_change]
  split
  · next same =>
    subst same
    simp
  · exact ⟨rfl, rfl⟩

theorem parent_noteChild : (noteChild block bc).parent = bc.parent := by
  funext hash
  exact (details_noteChild hash).2

theorem number_noteChild : (noteChild block bc).number = bc.number := by
  funext hash
  exact (details_noteChild hash).1

theorem treeRoute_noteChild (old new : Hash) :
    (noteChild block bc).treeRoute old new = bc.treeRoute old new := by
  rw [treeRoute, treeRoute, parent_noteChild, number_noteChild]
  rfl

end NoteChild

theorem run_onController {α : Type} (x : EStateM Failure Controller α) (bc : BlockChain) :
    (onController x).run bc =
      match x.run { bc.chainController with numberHash := bc.look } with
      | .ok a c => .ok a (bc.steered c)
      | .error .undefinedBehaviour c => .error .undefined (bc.steered c)
      | .error _ c => .error .thrown (bc.steered c) := rfl

theorem run_pushBlock_ok (ran : (pushBlock block).run bc = .ok () bc') :
    ∃ c, (Controller.pushBlock bc.infoParentHash block.view block.header).run
        { bc.chainController with numberHash := bc.look } = .ok () c ∧
      bc' = (bc.bloomed [block]).steered c := by
  rw [pushBlock, run_get_bind, bind_eq_ok] at ran
  obtain ⟨_, mid, pushed, added⟩ := ran
  rw [run_onController] at pushed
  split at pushed
  · next a c first =>
    cases pushed
    cases added
    exact ⟨c, first, rfl⟩
  · cases pushed
  · cases pushed

theorem run_pushBlock_thrown (ran : (pushBlock block).run bc = .error .thrown bc') :
    ∃ c failure, (Controller.pushBlock bc.infoParentHash block.view block.header).run
        { bc.chainController with numberHash := bc.look } = .error failure c ∧
      failure ≠ .undefinedBehaviour ∧ bc' = bc.steered c := by
  rw [pushBlock, run_get_bind] at ran
  cases pushed : (onController (Controller.pushBlock bc.infoParentHash block.view
      block.header)).run bc with
  | ok a mid =>
    rw [bind_ok pushed] at ran
    cases ran
  | error e mid =>
    rw [bind_error pushed] at ran
    cases ran
    rw [run_onController] at pushed
    split at pushed
    · cases pushed
    · cases pushed
    · next failure c other first =>
      cases pushed
      exact ⟨c, failure, first, fun same => other same, rfl⟩

theorem collected_steered (c : Controller) (branch : List Block) :
    (bc.steered c).collected branch = bc.collected branch := by
  induction branch generalizing bc with
  | nil => rfl
  | cons block rest ih => exact congrArg _ (@ih (bc.bloomed [block]))

/-- Pushing a branch pushes every block, adds every bloom, and collects what is to be stored. -/
theorem run_pushBranch_ok {branch : List Block} {batch : ExtrasBatch}
    (ran : (pushBranch branch).run bc = .ok batch bc') :
    ∃ c, Pushed bc.look bc.infoParentHash bc.chainController branch c ∧
      bc' = (bc.bloomed branch).steered c ∧ batch = bc.collected branch := by
  -- The chain changes along the branch, so it stays quantified over.
  induction branch generalizing bc batch with
  | nil =>
    cases ran
    exact ⟨_, .nil _, rfl, rfl⟩
  | cons block rest ih =>
    obtain ⟨_, mid, first, later⟩ := bind_eq_ok.mp ran
    obtain ⟨c, pushed, rfl⟩ := run_pushBlock_ok first
    rw [run_get_bind, bind_eq_ok] at later
    obtain ⟨others, last, second, made⟩ := later
    cases made
    obtain ⟨d, more, rfl, rfl⟩ := ih second
    refine ⟨d, .cons pushed more, rfl, ?_⟩
    rw [collected_steered]
    rfl

theorem run_pushBranch_thrown {branch : List Block}
    (ran : (pushBranch branch).run bc = .error .thrown bc') :
    ∃ done c, Stuck bc.look bc.infoParentHash bc.chainController branch done c ∧
      bc' = (bc.bloomed done).steered c := by
  induction branch generalizing bc with
  | nil => cases ran
  | cons block rest ih =>
    cases first : (pushBlock block).run bc with
    | error e mid =>
      -- The first block is the one that is refused.
      have stopped : (pushBranch (block :: rest)).run bc = .error e mid := bind_error first
      rw [stopped] at ran
      cases ran
      obtain ⟨c, failure, failed, honest, rfl⟩ := run_pushBlock_thrown first
      exact ⟨[], c, ⟨block, rest, _, failure, rfl, .nil _, failed, honest⟩, rfl⟩
    | ok _ mid =>
      obtain ⟨c, pushed, rfl⟩ := run_pushBlock_ok first
      have went : (pushBranch (block :: rest)).run bc = _ := bind_ok first
      rw [went, run_get_bind] at ran
      cases second : (pushBranch rest).run ((bc.bloomed [block]).steered c) with
      | ok others last =>
        rw [bind_ok second] at ran
        cases ran
      | error e last =>
        rw [bind_error second] at ran
        cases ran
        obtain ⟨done, d, ⟨next, more, mid', failure, rfl, before, failed, honest⟩, rfl⟩ := ih second
        exact ⟨block :: done, d,
          ⟨next, more, mid', failure, rfl, .cons pushed before, failed, honest⟩, rfl⟩

variable {common : Hash}

theorem run_revertTo_ok (ran : (revertTo common).run bc = .ok () bc') :
    ∃ c, bc.Reverted common bc.chainController c ∧ bc' = (bc.cleared common).steered c := by
  simp only [revertTo, EStateM.run] at ran
  split at ran
  · cases ran
  · next db reverted =>
    split at ran
    · cases ran
    · next block found =>
      cases ran
      exact ⟨_, ⟨db, block, reverted, found, rfl⟩, rfl⟩

theorem undoUntil_ne_thrown (firstValid : U32) (sessions : ℕ) (db : Database) :
    Database.undoUntil firstValid sessions db ≠ .error .thrown := by
  induction sessions generalizing db with
  | zero =>
    unfold Database.undoUntil
    split <;> simp
  | succ sessions ih =>
    unfold Database.undoUntil
    split
    · simp
    · split
      · simp
      · exact ih _

theorem run_revertTo_not_thrown (known : bc.Known common) :
    (revertTo common).run bc ≠ .error .thrown bc' := by
  intro ran
  simp only [revertTo, EStateM.run] at ran
  split at ran
  · next halt reverted =>
    cases ran
    exact undoUntil_ne_thrown _ _ _ reverted
  · next db reverted =>
    split at ran
    · next missing =>
      obtain ⟨block, found⟩ := known
      rw [show (clearCachesDuringChainReversion (bc.number common + 1) bc).blocks = bc.blocks
        from rfl, found] at missing
      cases missing
    · cases ran

/-- How the blocks of a branch came to be rejected, and what then became of the one from before. -/
structure Rejection (bc : BlockChain) (common : Hash) (old new done redone : List Block)
    (d : Controller) : Prop where
  steps : ∃ c₀ c₁ c₂, bc.Begins common bc.chainController c₀ ∧
    Stuck (bc.begun common).look bc.infoParentHash c₀ new done c₁ ∧
    bc.Reverted common c₁ c₂ ∧
    (redone = old ∧ Pushed ((bc.begun common).cleared common).look bc.infoParentHash c₂ old d ∨
      Stuck ((bc.begun common).cleared common).look bc.infoParentHash c₂ old redone d)

/-- The chain after a branch was rejected. -/
def afterRejection (bc : BlockChain) (common : Hash) (done redone : List Block)
    (d : Controller) : BlockChain :=
  ((((bc.begun common).bloomed done).cleared common).bloomed redone).steered d

/-- The chain after a branch was adopted. -/
def afterAdoption (bc : BlockChain) (common : Hash) (new : List Block) (block : Block)
    (asked : List Query) (c : Controller) : BlockChain :=
  let pushed := ((bc.begun common).bloomed new).steered c
  setHead common block
    (storeExtras ((bc.begun common).collected new) (store block (asked.foldl ask pushed)))

/-- The ways an import can end. -/
inductive Imported (bc : BlockChain) (block : Block) (asked : List Query) : BlockChain → Prop
  /-- The block was refused before anything was done. -/
  | refused : Imported bc block asked bc
  /-- The branch of the block leaves the chain too early. -/
  | unrouted (fits : bc.Fits block) (higher : bc.lastBlockNumber < block.number)
      (lost : bc.treeRoute bc.lastBlockHash block.header.parentHash = none) :
      Imported bc block asked (noteChild block bc)
  /-- The block is stored beside the chain. -/
  | aside (fits : bc.Fits block) (low : block.number ≤ bc.lastBlockNumber) :
      Imported bc block asked (store block (noteChild block bc))
  /-- A block of the branch was rejected. -/
  | rejected (fits : bc.Fits block) (higher : bc.lastBlockNumber < block.number)
      {route : Ancestry.Route Hash} {done redone : List Block} {d : Controller}
      (routed : bc.treeRoute bc.lastBlockHash block.header.parentHash = some route)
      (how : (noteChild block bc).Rejection route.common (bc.blocksOf route.dead)
        (bc.blocksOf route.fresh ++ [block]) done redone d) :
      Imported bc block asked ((noteChild block bc).afterRejection route.common done redone d)
  /-- The branch was adopted, and the block is the head. -/
  | adopted (fits : bc.Fits block) (higher : bc.lastBlockNumber < block.number)
      {route : Ancestry.Route Hash} {c₀ c : Controller}
      (routed : bc.treeRoute bc.lastBlockHash block.header.parentHash = some route)
      (began : (noteChild block bc).Begins route.common bc.chainController c₀)
      (pushed : Pushed ((noteChild block bc).begun route.common).look bc.infoParentHash c₀
        (bc.blocksOf route.fresh ++ [block]) c) :
      Imported bc block asked ((noteChild block bc).afterAdoption route.common
        (bc.blocksOf route.fresh ++ [block]) block asked c)

theorem run_begin_ok
    (ran : (if common ≠ bc.lastBlockHash then revertTo common else pure ()).run bc = .ok () bc') :
    ∃ c, bc.Begins common bc.chainController c ∧ bc' = (bc.begun common).steered c := by
  unfold Begins begun
  split at ran
  · next other =>
    obtain ⟨c, reverted, rfl⟩ := run_revertTo_ok ran
    exact ⟨c, by rw [if_pos other]; exact reverted, by rw [if_pos other]⟩
  · next same =>
    cases ran
    exact ⟨_, by rw [if_neg same], by rw [if_neg same]; rfl⟩

theorem blocks_begun (common : Hash) : (bc.begun common).blocks = bc.blocks := by
  unfold begun
  split <;> rfl

theorem lastBlockHash_begun (common : Hash) :
    (bc.begun common).lastBlockHash = bc.lastBlockHash := by
  unfold begun
  split <;> rfl

theorem detailsTable_begun (common : Hash) :
    (bc.begun common).detailsTable = bc.detailsTable := by
  unfold begun
  split <;> rfl

theorem infoParentHash_begun (common : Hash) :
    (bc.begun common).infoParentHash = bc.infoParentHash := by
  rw [infoParentHash, infoParentHash, blocks_begun, lastBlockHash_begun]

theorem number_begun (common hash : Hash) : (bc.begun common).number hash = bc.number hash := by
  rw [number, number, details, details, detailsTable_begun]

section Catching

variable {α : Type} {x handler : ChainM α} {a : α}

theorem run_catching_ok (ran : x.run bc = .ok a bc') : (catching x handler).run bc = .ok a bc' :=
  tryCatch_ok ran

theorem run_catching_ne_thrown (value : α) :
    (catching x (return value)).run bc ≠ .error .thrown bc' := by
  intro ran
  cases first : x.run bc with
  | ok a mid =>
    rw [run_catching_ok first] at ran
    cases ran
  | error halt mid =>
    have handled : (catching x (return value)).run bc = _ := tryCatch_error first
    rw [handled] at ran
    cases halt <;> cases ran

end Catching

/-- The handler of a rejected branch goes back to the common block and pushes the old branch. -/
theorem run_handler {old : List Block} {c₀ c₁ : Controller} {new done : List Block}
    (known : bc.Known common) (began : bc.Begins common bc.chainController c₀)
    (stuck : Stuck (bc.begun common).look bc.infoParentHash c₀ new done c₁)
    {r : EStateM.Result Halt BlockChain (Option ExtrasBatch)}
    (ran : (do revertTo common; let _ ← pushBranch old; return none : ChainM _).run
      (((bc.begun common).bloomed done).steered c₁) = r) :
    (∃ redone d, bc.Rejection common old new done redone d ∧
      (r = .ok none (bc.afterRejection common done redone d) ∨
        r = .error .thrown (bc.afterRejection common done redone d))) ∨
      ∃ halt bc', halt ≠ .thrown ∧ r = .error halt bc' := by
  have still : ∀ d, (((((bc.begun common).bloomed done).steered c₁).cleared common).steered
      d).infoParentHash = bc.infoParentHash := fun d => infoParentHash_begun common
  cases first : (revertTo common).run (((bc.begun common).bloomed done).steered c₁) with
  | error halt mid =>
    rw [bind_error first] at ran
    refine .inr ⟨halt, mid, ?_, ran.symm⟩
    rintro rfl
    refine run_revertTo_not_thrown ?_ first
    obtain ⟨block, found⟩ := known
    exact ⟨block, (congrArg (·[common]?) (blocks_begun common)).trans found⟩
  | ok _ mid =>
    rw [bind_ok first] at ran
    obtain ⟨c₂, put, rfl⟩ := run_revertTo_ok first
    have reverted : bc.Reverted common c₁ c₂ := by
      obtain ⟨db, block, undone, found, made⟩ := put
      refine ⟨db, block, ?_, ?_, made⟩
      · rw [← number_begun common common]
        exact undone
      · rw [← blocks_begun common]
        exact found
    cases second : (pushBranch old).run
        (((((bc.begun common).bloomed done).steered c₁).cleared common).steered c₂) with
    | ok batch last =>
      rw [bind_ok second] at ran
      obtain ⟨d, pushed, rfl, -⟩ := run_pushBranch_ok second
      rw [still] at pushed
      exact .inl ⟨old, d, ⟨c₀, c₁, c₂, began, stuck, reverted, .inl ⟨rfl, pushed⟩⟩, .inl ran.symm⟩
    | error halt last =>
      rw [bind_error second] at ran
      cases halt with
      | thrown =>
        obtain ⟨redone, d, again, rfl⟩ := run_pushBranch_thrown second
        rw [still] at again
        exact .inl ⟨redone, d, ⟨c₀, c₁, c₂, began, stuck, reverted, .inr again⟩, .inr ran.symm⟩
      | endless => exact .inr ⟨.endless, last, by decide, ran.symm⟩
      | undefined => exact .inr ⟨.undefined, last, by decide, ran.symm⟩

/-- Enacting a branch adopts it, or rejects it and goes back as far as it can. -/
theorem run_enactBranch {old new : List Block} (known : bc.Known common) {r : Option ExtrasBatch}
    (ran : (catching (enactBranch common old new) (return none)).run bc = .ok r bc') :
    (∃ c₀ c, bc.Begins common bc.chainController c₀ ∧
      Pushed (bc.begun common).look bc.infoParentHash c₀ new c ∧
      r = some ((bc.begun common).collected new) ∧
      bc' = ((bc.begun common).bloomed new).steered c) ∨
    r = none ∧ ∃ done redone d, bc.Rejection common old new done redone d ∧
      bc' = bc.afterRejection common done redone d := by
  -- The program is unfolded in the order in which it runs.
  have whole : (enactBranch common old new).run bc = .ok r bc' ∨
      r = none ∧ (enactBranch common old new).run bc = .error .thrown bc' := by
    cases first : (enactBranch common old new).run bc with
    | ok a mid =>
      rw [run_catching_ok first] at ran
      exact .inl ran
    | error halt mid =>
      have handled : (catching (enactBranch common old new) (return none)).run bc = _ :=
        tryCatch_error first
      rw [handled] at ran
      cases halt with
      | thrown =>
        cases ran
        exact .inr ⟨rfl, rfl⟩
      | endless => cases ran
      | undefined => cases ran
  have unfolded : (enactBranch common old new).run bc =
      ((if common ≠ bc.lastBlockHash then revertTo common else pure ()) >>= fun _ =>
        catching (do return some (← pushBranch new)) do
          revertTo common
          let _ ← pushBranch old
          return none).run bc := by
    rw [enactBranch, run_get_bind]
    split <;> rfl
  rw [unfolded] at whole
  cases first : (if common ≠ bc.lastBlockHash then revertTo common else pure ()).run bc with
  | error halt mid =>
    rw [bind_error first] at whole
    rcases whole with stopped | ⟨-, stopped⟩
    · cases stopped
    · cases stopped
      split at first
      · exact absurd first (run_revertTo_not_thrown known)
      · cases first
  | ok _ mid =>
    rw [bind_ok first] at whole
    obtain ⟨c₀, began, rfl⟩ := run_begin_ok first
    have still : ((bc.begun common).steered c₀).infoParentHash = bc.infoParentHash :=
      infoParentHash_begun common
    cases second : (pushBranch new).run ((bc.begun common).steered c₀) with
    | ok batch last =>
      have returned : (do return some (← pushBranch new) : ChainM _).run
          ((bc.begun common).steered c₀) = .ok (some batch) last := bind_ok second
      rw [run_catching_ok returned] at whole
      obtain ⟨c, pushed, rfl, rfl⟩ := run_pushBranch_ok second
      rw [still] at pushed
      rcases whole with ended | ⟨-, ended⟩
      · cases ended
        exact .inl ⟨c₀, c, began, pushed, by rw [collected_steered], rfl⟩
      · cases ended
    | error halt last =>
      have failed : (do return some (← pushBranch new) : ChainM _).run
          ((bc.begun common).steered c₀) = .error halt last := bind_error second
      have handled : (catching (do return some (← pushBranch new)) (do
          revertTo common
          let _ ← pushBranch old
          return none)).run ((bc.begun common).steered c₀) = _ := tryCatch_error failed
      rw [handled] at whole
      cases halt with
      | thrown =>
        obtain ⟨done, c₁, stuck, rfl⟩ := run_pushBranch_thrown second
        rw [still] at stuck
        rcases whole with ended | ⟨refused, ended⟩
        · obtain ⟨redone, d, how, same | same⟩ | ⟨halt, mid, other, same⟩ :=
            run_handler known began stuck ended
          · cases same
            exact .inr ⟨rfl, done, redone, d, how, rfl⟩
          · cases same
          · cases same
        · obtain ⟨redone, d, how, same | same⟩ | ⟨halt, mid, other, same⟩ :=
            run_handler known began stuck ended
          · cases same
          · cases same
            exact .inr ⟨refused, done, redone, d, how, rfl⟩
          · cases same
            exact absurd rfl other
      | endless =>
        rcases whole with ended | ⟨-, ended⟩ <;> cases ended
      | undefined =>
        rcases whole with ended | ⟨-, ended⟩ <;> cases ended

theorem Grown.known_common (grown : bc.Grown) {new : Hash} {route : Ancestry.Route Hash}
    (routed : bc.treeRoute bc.lastBlockHash new = some route) : bc.Known route.common := by
  obtain ⟨n, turns⟩ := Ancestry.Rooted.route_eq_some routed
  rw [← turns.above]
  exact grown.rooted.known_ancestor grown.known_head n

theorem imported_of_insert (grown : bc.Grown) (fits : bc.Fits block) {r : ImportRoute}
    (ran : (insertBlockAndExtras block asked).run bc = .ok r bc') :
    Imported bc block asked bc' := by
  rw [insertBlockAndExtras, run_modify_bind, run_get_bind] at ran
  split at ran
  · next higher =>
    cases routed : (noteChild block bc).treeRoute (noteChild block bc).lastBlockHash
        block.header.parentHash with
    | none =>
      simp only [routed] at ran
      cases ran
      exact .unrouted fits higher (by rw [← treeRoute_noteChild]; exact routed)
    | some route =>
      simp only [routed] at ran
      have onOld : bc.treeRoute bc.lastBlockHash block.header.parentHash = some route := by
        rw [← treeRoute_noteChild]
        exact routed
      have known : (noteChild block bc).Known route.common := grown.known_common onOld
      obtain ⟨result, mid, enacted, rest⟩ := bind_eq_ok.mp ran
      obtain ⟨c₀, c, began, pushed, rfl, rfl⟩ | ⟨rfl, done, redone, d, how, rfl⟩ :=
        run_enactBranch known enacted
      · cases rest
        exact .adopted fits higher onOld began pushed
      · cases rest
        exact .rejected fits higher onOld how
  · next low =>
    cases ran
    exact .aside fits (Nat.le_of_not_lt low)

theorem insert_ne_thrown : (insertBlockAndExtras block asked).run bc ≠ .error .thrown bc' := by
  intro ran
  rw [insertBlockAndExtras, run_modify_bind, run_get_bind] at ran
  split at ran
  · cases routed : (noteChild block bc).treeRoute (noteChild block bc).lastBlockHash
        block.header.parentHash with
    | none =>
      simp only [routed] at ran
      cases ran
    | some route =>
      simp only [routed] at ran
      cases enacted : (catching (enactBranch route.common
          (route.dead.reverse.filterMap ((noteChild block bc).blocks[·]?))
          (route.fresh.reverse.filterMap ((noteChild block bc).blocks[·]?) ++ [block]))
          (return none)).run (noteChild block bc) with
      | ok result mid =>
        rw [bind_ok enacted] at ran
        cases result <;> cases ran
      | error halt mid =>
        rw [bind_error enacted] at ran
        cases ran
        exact run_catching_ne_thrown none enacted
  · cases ran

theorem imported_of_receive (grown : bc.Grown) (received : bc.receive block asked = some bc') :
    Imported bc block asked bc' := by
  -- Each check that fails leaves the chain as it is; behind them stands the insertion.
  unfold receive importBlock at received
  rw [run_get_bind] at received
  cases new : bc.isKnown block.header.hash true with
  | true =>
    simp only [new, if_true] at received
    cases received
    exact .refused
  | false =>
    cases old : bc.isKnown block.header.parentHash false with
    | false =>
      simp only [new, old] at received
      cases received
      exact .refused
    | true =>
      simp only [new, old] at received
      cases stored : bc.blocks[block.header.parentHash]? with
      | none =>
        simp only [stored] at received
        cases received
        exact .refused
      | some above =>
        cases verified : verify above.header block.header with
        | false =>
          simp only [stored, verified] at received
          cases received
          exact .refused
        | true =>
          have fits := grown.fits_of_checks new stored verified
          simp only [stored, verified, Bool.not_true, Bool.false_eq_true, if_false] at received
          cases ran : (insertBlockAndExtras block asked).run bc with
          | ok r last =>
            rw [ran] at received
            cases received
            exact imported_of_insert grown fits ran
          | error halt last =>
            rw [ran] at received
            cases halt with
            | thrown => exact absurd ran insert_ne_thrown
            | endless => cases received
            | undefined => cases received

end BlockChain

end Etiam
