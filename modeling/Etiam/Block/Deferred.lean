import Etiam.Block.Active
import Etiam.State.Session

/-! One commit for a block instead of one for each transaction: when it makes no difference. -/

namespace Etiam

namespace CachedState

variable {s c r : CachedState}

/-- Nothing is waiting in the cache. -/
structure Settled (s : CachedState) : Prop where
  cache : s.cache = ∅
  absent : ∀ a ∈ s.nonExistingAccountsCache, s.state[a]? = none

theorem Settled.lookup (settled : s.Settled) (a : Address) :
    s.lookup a = s.state[a]?.map .loaded := by
  -- With an empty cache the trie decides.
  rw [CachedState.lookup, settled.cache, Std.ExtTreeMap.getElem?_empty, Option.none_or]

theorem Settled.faithful (settled : s.Settled) : s.Faithful := by
  refine ⟨settled.absent, fun a e held => ?_⟩
  rw [settled.cache] at held
  cases held.symm.trans Std.ExtTreeMap.getElem?_empty

theorem Settled.listed (settled : s.Settled) : s.Listed := by
  intro a noted
  rw [settled.lookup, settled.absent a noted]
  rfl

theorem Settled.commit_state (settled : s.Settled) :
    (s.commit .removeEmptyAccounts).state = s.state := by
  -- Every account is settled by its cache entry, of which there is none.
  apply Std.ExtTreeMap.ext_getElem?
  intro a
  rw [getElem?_commit, settled.cache, Std.ExtTreeMap.getElem?_empty]
  rfl

theorem Listed.settled_commit (listed : s.Listed) : (s.commit .removeEmptyAccounts).Settled := by
  refine ⟨?_, listed.commit.1.absent⟩
  unfold CachedState.commit
  rfl

theorem Shadows.of_settled {gap : Prop} (left : c.Settled) (right : r.Settled)
    (state : c.state = r.state)
    (nonce : r.accountStartNonce = c.accountStartNonce) : Shadows gap c r := by
  refine ⟨left.faithful, right.faithful, left.listed, right.listed, nonce, fun a => ?_⟩
  rw [left.lookup, right.lookup, state]
  cases r.state[a]? with
  | none => trivial
  | some stored => exact ⟨rfl, rfl, fun _ => rfl⟩

theorem Settled.tame (settled : s.Settled) (op : Operation) : s.Tame op := by
  intro e shown doomed
  rw [settled.lookup] at shown
  obtain ⟨stored, -, rfl⟩ := Option.map_eq_some_iff.mp shown
  cases doomed.1

end CachedState

namespace ActiveBlock

open CachedState

/-- Every command that the transactions of a block use meets a condition where it is used. -/
def AllAlong (ok : Session → Command → Prop) (multiThreadImport : Bool) (executor : Executor) :
    List Transaction → ActiveBlock → Prop
  | [], _ => True
  | t :: ts, b =>
    (executor b.envInfo t).Along Session.handle ok (.start b.state) ∧
      AllAlong ok multiThreadImport executor ts (b.execute multiThreadImport executor t).2

/-- Two runs of a block that differ only in how often their states were committed. -/
structure Mirrors (b b' : ActiveBlock) : Prop where
  shadows : Shadows True b.state b'.state
  receipts : b'.receipts = b.receipts
  previousBlock : b'.previousBlock = b.previousBlock
  currentBlock : b'.currentBlock = b.currentBlock
  isSealed : b'.isSealed = b.isSealed
  uncommitted : b.committedToSeal = false
  uncommitted' : b'.committedToSeal = false

variable {b b' : ActiveBlock} {executor : Executor}

theorem Mirrors.envInfo (mirrors : Mirrors b b') : b'.envInfo = b.envInfo := by
  simp only [ActiveBlock.envInfo, gasUsed, mirrors.receipts, mirrors.previousBlock,
    mirrors.currentBlock]

theorem shadows_foldl_kill {c r : CachedState} (shadows : Shadows True c r) (dead : List Address) :
    Shadows True (dead.foldl kill c) (dead.foldl kill r) := by
  induction dead generalizing c r with
  | nil => exact shadows
  | cons a dead ih => exact ih (shadows.kill a)

/-- A transaction ends alike in both states, of which the second is committed afterwards. -/
theorem shadows_execute {c r : CachedState} (shadows : Shadows True c r) (env : EnvInfo)
    (t : Transaction)
    (fine : (executor env t).Along Session.handle
      (fun s command => s.Fine command ∧ s.Tame command) (.start c))
    (fine' : (executor env t).Along Session.handle Session.Fine (.start r)) :
    (c.execute true executor env t).1 = (r.execute false executor env t).1 ∧
      Shadows True (c.execute true executor env t).2 (r.execute false executor env t).2 ∧
      (∀ receipt, (c.execute true executor env t).1 = .ok receipt →
        (r.execute false executor env t).2.Settled) := by
  -- The bodies run alike; what follows them is decided by the result that they share.
  obtain ⟨same, paired⟩ := (Session.Paired.start shadows).run (executor env t)
    (by simpa only [forall_const] using fine) fine'
  unfold CachedState.execute
  simp only
  rw [← same]
  cases ((executor env t).run Session.handle (.start c)).1 with
  | error e => exact ⟨rfl, paired.shadows, fun _ ok => by cases ok⟩
  | ok x =>
    have killed := shadows_foldl_kill paired.shadows x.suicides
    exact ⟨rfl, killed.commit, fun _ _ => killed.listed'.settled_commit⟩

theorem Mirrors.execute (mirrors : Mirrors b b') (t : Transaction)
    (fine : (executor b.envInfo t).Along Session.handle
      (fun s command => s.Fine command ∧ s.Tame command) (.start b.state))
    (fine' : (executor b'.envInfo t).Along Session.handle Session.Fine (.start b'.state)) :
    (b.execute true executor t).1 = (b'.execute false executor t).1 ∧
      Mirrors (b.execute true executor t).2 (b'.execute false executor t).2 ∧
      ((b.execute true executor t).1 = .ok () →
        (b'.execute false executor t).2.state.Settled) := by
  have still : b.uncommitToSeal = b := by simp [uncommitToSeal, mirrors.uncommitted]
  have still' : b'.uncommitToSeal = b' := by simp [uncommitToSeal, mirrors.uncommitted']
  unfold ActiveBlock.execute
  simp only [still, still', mirrors.isSealed]
  by_cases closed : b.isSealed = true
  · simp only [if_pos closed]
    exact ⟨trivial, mirrors, fun ok => by cases ok⟩
  · simp only [if_neg closed]
    rw [mirrors.envInfo] at fine' ⊢
    obtain ⟨same, shadows, settled⟩ := shadows_execute mirrors.shadows b.envInfo t fine fine'
    rcases outcome : b.state.execute true executor b.envInfo t with ⟨result, s⟩
    rcases outcome' : b'.state.execute false executor b.envInfo t with ⟨result', s'⟩
    rw [outcome, outcome'] at same shadows
    rw [outcome, outcome'] at settled
    obtain rfl : result = result' := same
    cases result with
    | error e =>
      exact ⟨rfl, { mirrors with shadows, isSealed := rfl }, fun ok => by cases ok⟩
    | ok receipt =>
      have receipts : b'.receipts ++ [receipt] = b.receipts ++ [receipt] := by
        rw [mirrors.receipts]
      exact ⟨rfl, { mirrors with shadows, receipts, isSealed := rfl },
        fun _ => settled receipt rfl⟩

theorem Mirrors.playBack (mirrors : Mirrors b b') (settled : b'.state.Settled) (i : ℕ)
    (ts : List Transaction)
    (fine : AllAlong (fun s command => s.Fine command ∧ s.Tame command) true executor ts b)
    (fine' : AllAlong Session.Fine false executor ts b') :
    (playBack true executor i ts b).1 = (playBack false executor i ts b').1 ∧
      Mirrors (playBack true executor i ts b).2 (playBack false executor i ts b').2 ∧
      ((playBack true executor i ts b).1 = .ok () →
        (playBack false executor i ts b').2.state.Settled) := by
  -- Each transaction leaves the second run settled, as it was before it.
  induction ts generalizing i b b' with
  | nil => exact ⟨rfl, mirrors, fun _ => settled⟩
  | cons t ts ih =>
    obtain ⟨same, mirrors', settled'⟩ := mirrors.execute t fine.1 fine'.1
    have later := fine.2
    have later' := fine'.2
    unfold ActiveBlock.playBack
    rcases outcome : b.execute true executor t with ⟨result, d⟩
    rcases outcome' : b'.execute false executor t with ⟨result', d'⟩
    rw [outcome, outcome'] at same mirrors'
    rw [outcome, outcome'] at settled'
    rw [outcome] at later
    rw [outcome'] at later'
    obtain rfl : result = result' := same
    cases result with
    | error e => exact ⟨rfl, mirrors', fun ok => by cases ok⟩
    | ok u => exact ih mirrors' (settled' rfl) (i + 1) later later'

/-- The two runs are at the same trie, with nothing left in their caches. -/
structure Meets (b b' : ActiveBlock) : Prop where
  settled : b.state.Settled
  settled' : b'.state.Settled
  state : b.state.state = b'.state.state
  accountStartNonce : b'.state.accountStartNonce = b.state.accountStartNonce
  receipts : b'.receipts = b.receipts
  previousBlock : b'.previousBlock = b.previousBlock
  currentBlock : b'.currentBlock = b.currentBlock

theorem Mirrors.commit (mirrors : Mirrors b b') (settled : b'.state.Settled) :
    Meets b.commit b' where
  settled := mirrors.shadows.listed.settled_commit
  settled' := settled
  state := mirrors.shadows.commit_state.trans settled.commit_state
  accountStartNonce := by
    rw [mirrors.shadows.accountStartNonce]
    exact (accountStartNonce_commit _).symm
  receipts := mirrors.receipts
  previousBlock := mirrors.previousBlock
  currentBlock := mirrors.currentBlock

theorem Meets.applyRewards (meets : Meets b b') (blockReward : U256) :
    Meets (b.applyRewards blockReward).commit (b'.applyRewards blockReward).commit := by
  have shadows : Shadows True b.state b'.state :=
    .of_settled meets.settled meets.settled' meets.state meets.accountStartNonce
  have credited := shadows.addBalance (a := b.currentBlock.author) blockReward
    fun _ => meets.settled.tame _
  have author : b'.currentBlock.author = b.currentBlock.author := by rw [meets.currentBlock]
  refine ⟨credited.listed.settled_commit, ?_, ?_, ?_, meets.receipts, meets.previousBlock,
    meets.currentBlock⟩
  · simp only [ActiveBlock.applyRewards, ActiveBlock.commit, author]
    exact credited.listed'.settled_commit
  · simp only [ActiveBlock.applyRewards, ActiveBlock.commit, author]
    exact credited.commit_state
  · simp only [ActiveBlock.applyRewards, ActiveBlock.commit, author, accountStartNonce_commit]
    exact credited.accountStartNonce

theorem Meets.checkReceipts (meets : Meets b b') (digest : Digest) :
    b'.checkReceipts digest = b.checkReceipts digest := by
  have root : b'.receiptsRoot digest = b.receiptsRoot digest := by
    rw [receiptsRoot, receiptsRoot, meets.receipts]
  have bloom : b'.logBloom digest = b.logBloom digest := by rw [logBloom, logBloom, meets.receipts]
  rw [ActiveBlock.checkReceipts, ActiveBlock.checkReceipts, root, bloom, meets.currentBlock]

theorem Meets.checkState (meets : Meets b b') (digest : Digest) :
    b'.checkState digest = b.checkState digest := by
  have root : b'.rootHash digest = b.rootHash digest := by rw [rootHash, rootHash, meets.state]
  have gas : b'.gasUsed = b.gasUsed := by rw [gasUsed, gasUsed, meets.receipts]
  rw [ActiveBlock.checkState, ActiveBlock.checkState, root, gas, meets.currentBlock,
    meets.previousBlock]

theorem playBack_error {multiThreadImport : Bool} {i : ℕ} {ts : List Transaction} {e : EnactError}
    (refused : (ActiveBlock.playBack multiThreadImport executor i ts b).1 = .error e) :
    ∃ j cause, e = .transaction j cause := by
  induction ts generalizing i b with
  | nil => cases refused
  | cons t ts ih =>
    unfold ActiveBlock.playBack at refused
    rcases outcome : b.execute multiThreadImport executor t with ⟨result, d⟩
    rw [outcome] at refused
    cases result with
    | error cause =>
      cases refused
      exact ⟨i, cause, rfl⟩
    | ok u => exact ih refused

/-- With one commit per block a block is accepted or refused as with one commit per transaction,
with the same receipts and the same accounts, whenever no transaction uses an account that is
going to be removed in a way that tells it from none. -/
theorem enact_eq_committing (blockReward : U256 → U256) (digest : Digest) (info : BlockInfo)
    (ts : List Transaction) (b : ActiveBlock) (settled : b.state.Settled)
    (uncommitted : b.committedToSeal = false)
    (fine : AllAlong (fun s command => s.Fine command ∧ s.Tame command) true executor ts
      { b with currentBlock := info })
    (fine' : AllAlong Session.Fine false executor ts { b with currentBlock := info }) :
    (enact true executor blockReward digest info ts b).1 =
        (enact false executor blockReward digest info ts b).1 ∧
      (enact true executor blockReward digest info ts b).2.receipts =
        (enact false executor blockReward digest info ts b).2.receipts ∧
      ((∀ i e, (enact true executor blockReward digest info ts b).1 ≠
          .error (.transaction i e)) →
        (enact true executor blockReward digest info ts b).2.state.state =
          (enact false executor blockReward digest info ts b).2.state.state) := by
  have start : Mirrors { b with currentBlock := info } { b with currentBlock := info } :=
    ⟨.of_settled settled settled rfl rfl, rfl, rfl, rfl, rfl, uncommitted, uncommitted⟩
  obtain ⟨same, mirrors, settled'⟩ := start.playBack settled 0 ts fine fine'
  unfold enact
  by_cases family : b.currentBlock.parentHash ≠ digest.hash b.previousBlock
  · simp only [if_pos family]
    exact ⟨trivial, trivial, fun _ => trivial⟩
  · simp only [if_neg family]
    rcases outcome : ActiveBlock.playBack true executor 0 ts { b with currentBlock := info }
      with ⟨result, d⟩
    rcases outcome' : ActiveBlock.playBack false executor 0 ts { b with currentBlock := info }
      with ⟨result', d'⟩
    rw [outcome, outcome'] at same mirrors
    rw [outcome, outcome'] at settled'
    obtain rfl : result = result' := same
    cases result with
    | error e =>
      refine ⟨rfl, mirrors.receipts.symm, fun accepted => ?_⟩
      obtain ⟨i, cause, rfl⟩ := playBack_error (congrArg Prod.fst outcome)
      exact absurd rfl (accepted i cause)
    | ok u =>
      have meets := mirrors.commit (settled' rfl)
      simp only [if_true, Bool.false_eq_true, if_false, meets.checkReceipts digest]
      cases d.commit.checkReceipts digest with
      | error e => exact ⟨rfl, meets.receipts.symm, fun _ => meets.state⟩
      | ok u =>
        have rewarded := meets.applyRewards (blockReward d.currentBlock.number)
        have number : d'.currentBlock.number = d.currentBlock.number := by
          rw [mirrors.currentBlock]
        have final := rewarded.checkState digest
        have there : d.commit.currentBlock.number = d.currentBlock.number := rfl
        simp only [number, there, final]
        cases (d.commit.applyRewards (blockReward d.currentBlock.number)).commit.checkState digest
          with
        | error e => exact ⟨rfl, rewarded.receipts.symm, fun _ => rewarded.state⟩
        | ok u =>
          have header := congrArg BlockInfo.difficulty rewarded.currentBlock
          exact ⟨congrArg Except.ok header.symm, rewarded.receipts.symm, fun _ => rewarded.state⟩

/-- Two credits of one account, each in a transaction of its own. -/
theorem enact_eq_committing_credits :
    let executor : Executor := fun _ t =>
      .call (.perform (.addBalance 1 t.value)) fun _ => .ret (.ok ⟨true, 0, [], []⟩)
    let ts := [Transaction.transfer 0 2 1 5, Transaction.transfer 1 2 1 6]
    let b := ActiveBlock.opened ∅
    (enact true executor (fun _ => 0) .blank .blank ts b).2.state.state =
      (enact false executor (fun _ => 0) .blank .blank ts b).2.state.state := by
  intro executor ts b
  have settled : b.state.Settled := ⟨rfl, fun a noted => by simp [b, opened] at noted⟩
  have filled : ((b.execute true executor (.transfer 0 2 1 5)).2.state.lookup 1).all
      (fun e => !e.isEmpty && e.isAlive) = true := by decide +kernel
  have accepted : (enact true executor (fun _ => 0) .blank .blank ts b).1.isOk = true := by
    decide +kernel
  have fine : AllAlong (fun s command => s.Fine command ∧ s.Tame command) true executor ts
      { b with currentBlock := .blank } := by
    refine ⟨⟨⟨⟨trivial, nofun⟩, settled.tame _⟩, trivial⟩,
      ⟨⟨⟨trivial, nofun⟩, fun e shown doomed => ?_⟩, trivial⟩, trivial⟩
    -- The account has five wei by then, so it is not going to be removed.
    have there : (b.execute true executor (.transfer 0 2 1 5)).2.state.lookup 1 = some e := shown
    simp only [there, Option.all_some, Bool.and_eq_true, Bool.not_eq_true'] at filled
    rcases doomed.2 with empty | dead
    · cases filled.1.symm.trans empty
    · cases dead.symm.trans filled.2
  have fine' : AllAlong Session.Fine false executor ts { b with currentBlock := .blank } :=
    ⟨⟨⟨trivial, nofun⟩, trivial⟩, ⟨⟨trivial, nofun⟩, trivial⟩, trivial⟩
  refine (enact_eq_committing (fun _ => 0) .blank .blank ts b settled rfl fine fine').2.2 ?_
  intro i e refused
  rw [refused] at accepted
  cases accepted

/-- An account that holds nothing but a word of storage is sent nothing and then five wei. The
word survives where the block is committed once, and is gone where each transaction is. -/
theorem storage_survives_one_commit :
    let hoard : Account := ⟨0, 0, [], Storage.empty.write 1 7⟩
    let accounts := (∅ : Std.ExtTreeMap Address Account).insert 2 (.fresh 0 10) |>.insert 9 hoard
    let ts := [Transaction.transfer 0 2 9 0, Transaction.transfer 1 2 9 5]
    let run := fun multiThreadImport => enact multiThreadImport Engine.plain.executor
      Engine.plain.blockReward .blank .blank ts (.opened accounts)
    ((run true).1.isOk = true ∧ (run false).1.isOk = true) ∧
      (run true).2.state.state[(9 : Address)]?.map (·.storage.read 1) = some 7 ∧
      (run false).2.state.state[(9 : Address)]?.map (·.storage.read 1) = some 0 := by
  decide +kernel

end ActiveBlock

end Etiam
