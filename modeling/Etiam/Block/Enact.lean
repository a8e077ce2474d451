import Etiam.Block.Active

/-! What a header says about the outcome of its block once the block is accepted. -/

namespace Etiam

namespace ActiveBlock

variable {executor : Executor} {blockReward : U256 → U256} {digest : Digest} {info : BlockInfo}
  {ts : List Transaction} {b d : ActiveBlock}

/-- The block after its transactions and its reward, whatever its header says of them. -/
def played (executor : Executor) (blockReward : U256 → U256) (info : BlockInfo)
    (ts : List Transaction) (b : ActiveBlock) : Except EnactError ActiveBlock :=
  match playBack true executor 0 ts { b with currentBlock := info } with
  | (.error e, _) => .error e
  | (.ok (), b) => .ok (b.commit.applyRewards (blockReward info.number)).commit

theorem execute_frame {multiThreadImport : Bool} (t : Transaction) :
    (b.execute multiThreadImport executor t).2.currentBlock = b.currentBlock ∧
      (b.execute multiThreadImport executor t).2.previousBlock = b.previousBlock := by
  -- Neither going back before the commit nor adding a transaction touches them.
  have still : b.uncommitToSeal.currentBlock = b.currentBlock ∧
      b.uncommitToSeal.previousBlock = b.previousBlock := by
    unfold uncommitToSeal
    split <;> exact ⟨rfl, rfl⟩
  unfold execute
  split
  · exact ⟨rfl, rfl⟩
  · simp only
    split <;> exact still

theorem playBack_frame {multiThreadImport : Bool} (i : ℕ) :
    (playBack multiThreadImport executor i ts b).2.currentBlock = b.currentBlock ∧
      (playBack multiThreadImport executor i ts b).2.previousBlock = b.previousBlock := by
  induction ts generalizing i b with
  | nil => exact ⟨rfl, rfl⟩
  | cons t ts ih =>
    have once : (b.execute multiThreadImport executor t).2.currentBlock = b.currentBlock ∧
        (b.execute multiThreadImport executor t).2.previousBlock = b.previousBlock :=
      execute_frame t
    unfold playBack
    rcases outcome : b.execute multiThreadImport executor t with ⟨result, d⟩
    rw [outcome] at once
    cases result with
    | error e => exact once
    | ok u =>
      obtain ⟨current, previous⟩ := ih (i + 1) (b := d)
      exact ⟨current.trans once.1, previous.trans once.2⟩

theorem checkReceipts_ok_iff : (b.checkReceipts digest).isOk = true ↔
    b.currentBlock.receiptsRoot = b.receiptsRoot digest ∧
      b.currentBlock.logBloom = b.logBloom digest := by
  unfold checkReceipts
  split
  · next other => exact ⟨nofun, fun same => absurd same.1.symm other⟩
  · next root =>
    split
    · next other => exact ⟨nofun, fun same => absurd same.2 other⟩
    · next bloom => exact ⟨fun _ => ⟨(not_not.mp root).symm, not_not.mp bloom⟩, fun _ => rfl⟩

theorem checkState_ok_iff : (b.checkState digest).isOk = true ↔
    (b.currentBlock.stateRoot = b.rootHash digest ∨
      b.currentBlock.stateRoot = b.previousBlock.stateRoot) ∧
    b.currentBlock.gasUsed = b.gasUsed := by
  unfold checkState
  split
  · next other =>
    refine ⟨nofun, fun same => ?_⟩
    rcases same.1 with root | repeated
    · exact absurd root other.2
    · exact absurd repeated other.1
  · next root =>
    have either : b.currentBlock.stateRoot = b.rootHash digest ∨
        b.currentBlock.stateRoot = b.previousBlock.stateRoot := by
      rcases not_and_or.mp root with repeated | same
      · exact .inr (not_not.mp repeated)
      · exact .inl (not_not.mp same)
    split
    · next other => exact ⟨nofun, fun same => absurd same.2 other⟩
    · next gas => exact ⟨fun _ => ⟨either, not_not.mp gas⟩, fun _ => rfl⟩

/-- A block is accepted exactly if its header fits the outcome of its transactions, except that
it may repeat the state root of its parent instead of giving the one that was reached. -/
theorem enact_ok_iff : (enact true executor blockReward digest info ts b).1.isOk = true ↔
    b.currentBlock.parentHash = digest.hash b.previousBlock ∧
    ∃ d, played executor blockReward info ts b = .ok d ∧
      info.receiptsRoot = d.receiptsRoot digest ∧ info.logBloom = d.logBloom digest ∧
      info.gasUsed = d.gasUsed ∧
      (info.stateRoot = d.rootHash digest ∨ info.stateRoot = b.previousBlock.stateRoot) := by
  unfold enact played
  by_cases family : b.currentBlock.parentHash ≠ digest.hash b.previousBlock
  · rw [if_pos family]
    exact ⟨nofun, fun accepted => absurd accepted.1 family⟩
  rw [if_neg family]
  have frame : (playBack true executor 0 ts { b with currentBlock := info }).2.currentBlock = info ∧
      (playBack true executor 0 ts { b with currentBlock := info }).2.previousBlock =
        b.previousBlock := playBack_frame 0
  rcases outcome : playBack true executor 0 ts { b with currentBlock := info } with ⟨result, d⟩
  rw [outcome] at frame
  obtain ⟨current, previous⟩ : d.currentBlock = info ∧ d.previousBlock = b.previousBlock := frame
  cases result with
  | error e =>
    refine ⟨nofun, fun accepted => ?_⟩
    obtain ⟨-, d', ends, -⟩ := accepted
    cases ends
  | ok u =>
    -- The reward and the commits change neither the receipts nor the header.
    have receipts : (d.commit.checkReceipts digest).isOk = true ↔
        info.receiptsRoot = d.receiptsRoot digest ∧ info.logBloom = d.logBloom digest := by
      rw [← current]
      exact checkReceipts_ok_iff
    generalize settled : (d.commit.applyRewards (blockReward info.number)).commit = f
    have final : (f.checkState digest).isOk = true ↔
        (info.stateRoot = f.rootHash digest ∨ info.stateRoot = b.previousBlock.stateRoot) ∧
          info.gasUsed = f.gasUsed := by
      have header : f.currentBlock = info := settled ▸ current
      have parent : f.previousBlock = b.previousBlock := settled ▸ previous
      rw [← header, ← parent]
      exact checkState_ok_iff
    have root : f.receiptsRoot digest = d.receiptsRoot digest := settled ▸ rfl
    have bloom : f.logBloom digest = d.logBloom digest := settled ▸ rfl
    have number : d.commit.currentBlock.number = info.number := by rw [← current]; rfl
    simp only [if_true, number, settled, Except.ok.injEq, exists_eq_left', root, bloom]
    have family' := not_not.mp family
    cases checked : d.commit.checkReceipts digest with
    | error e =>
      rw [checked] at receipts
      refine ⟨nofun, fun accepted => ?_⟩
      obtain ⟨-, same, same', -⟩ := accepted
      cases receipts.mpr ⟨same, same'⟩
    | ok u =>
      rw [checked] at receipts
      obtain ⟨same, same'⟩ := receipts.mp rfl
      cases checked' : f.checkState digest with
      | error e =>
        rw [checked'] at final
        refine ⟨nofun, fun accepted => ?_⟩
        obtain ⟨-, -, -, gas, either⟩ := accepted
        cases final.mpr ⟨either, gas⟩
      | ok u =>
        rw [checked'] at final
        obtain ⟨either, gas⟩ := final.mp rfl
        exact ⟨fun _ => ⟨family', same, same', gas, either⟩, fun _ => rfl⟩

/-- The header of an accepted block has the receipts root, the log bloom and the gas of its
execution, and it has the state root of its execution exactly if it does not repeat the one of
its parent, or the execution leads back to that one. -/
theorem header_of_enacted
    (accepted : (enact true executor blockReward digest info ts b).1.isOk = true) :
    ∃ d, played executor blockReward info ts b = .ok d ∧
      info.receiptsRoot = d.receiptsRoot digest ∧ info.logBloom = d.logBloom digest ∧
      info.gasUsed = d.gasUsed ∧
      (info.stateRoot = d.rootHash digest ↔
        info.stateRoot ≠ b.previousBlock.stateRoot ∨
          d.rootHash digest = b.previousBlock.stateRoot) := by
  obtain ⟨-, d, ends, receipts, bloom, gas, either⟩ := enact_ok_iff.mp accepted
  refine ⟨d, ends, receipts, bloom, gas, fun same => ?_, fun safe => ?_⟩
  · by_cases repeated : info.stateRoot = b.previousBlock.stateRoot
    · exact .inr (same.symm.trans repeated)
    · exact .inl repeated
  · rcases safe with other | back
    · exact either.resolve_right other
    · rcases either with same | repeated
      · exact same
      · exact repeated.trans back.symm

/-- A block with one transfer whose header gives the root that is reached. -/
theorem header_of_enacted_transfer :
    let accounts := (∅ : Std.ExtTreeMap Address Account).insert 2 (.fresh 0 10)
    let digest : Digest := { Digest.blank with rootHash := fun accounts => accounts.size }
    let info : BlockInfo := { BlockInfo.blank with stateRoot := 2 }
    ∃ d, played Engine.plain.executor Engine.plain.blockReward info
        [.transfer 0 2 9 5] (.opened accounts) = .ok d ∧ info.stateRoot = d.rootHash digest := by
  intro accounts digest info
  have accepted : (enact true Engine.plain.executor Engine.plain.blockReward digest info
      [.transfer 0 2 9 5] (.opened accounts)).1.isOk = true := by
    decide +kernel
  obtain ⟨d, ends, -, -, -, root⟩ := header_of_enacted accepted
  exact ⟨d, ends, root.mpr (.inl (by decide))⟩

/-- A block without transactions is accepted with the state root of its parent, although its
author was credited with two wei. -/
theorem stale_state_root_accepted :
    let digest : Digest := { Digest.blank with rootHash := fun accounts => accounts.size }
    let ran := enact true Engine.plain.executor (fun _ => 2) digest .blank [] (.opened ∅)
    ran.1.isOk = true ∧ ran.2.currentBlock.stateRoot = 0 ∧ ran.2.rootHash digest = 1 := by
  decide +kernel

end ActiveBlock

end Etiam
