import Etiam.Vote.Manager

/-! The vote operations as bookkeeping on balances and ballots, and the code's refinement of it. -/

namespace Etiam

/-- The vote record of an account as numbers alone, with finitely many entries that are not zero. -/
@[ext] structure Ballot where
  isCandidate : Bool
  receivedVote : U64
  holdVotes : U64
  record : Address →₀ U64

namespace Ballot

/-- The ballot of an account that never took part in a vote. -/
noncomputable def blank : Ballot := ⟨false, 0, 0, 0⟩

/-- The ballot after its votes for a candidate are taken back. -/
noncomputable def withdrawFrom (b : Ballot) (candidate : Address) : Ballot :=
  { b with holdVotes := b.holdVotes + b.record candidate, record := b.record.erase candidate }

end Ballot

/-- Every account's balance and ballot. -/
@[ext] structure Ledger where
  balance : Address → U256
  ballot : Address → Ballot

namespace Ledger

/-- Change the ballot of one account. -/
def modify (l : Ledger) (a : Address) (change : Ballot → Ballot) : Ledger :=
  { l with ballot := Function.update l.ballot a (change (l.ballot a)) }

/-- Change the balance of one account. -/
def modifyBalance (l : Ledger) (a : Address) (change : U256 → U256) : Ledger :=
  { l with balance := Function.update l.balance a (change (l.balance a)) }

@[simp] theorem modify_balance (l : Ledger) (a : Address) (change : Ballot → Ballot) :
    (l.modify a change).balance = l.balance := rfl

@[simp] theorem modifyBalance_ballot (l : Ledger) (a : Address) (change : U256 → U256) :
    (l.modifyBalance a change).ballot = l.ballot := rfl

@[simp] theorem modify_ballot (l : Ledger) (a b : Address) (change : Ballot → Ballot) :
    (l.modify a change).ballot b = if b = a then change (l.ballot a) else l.ballot b := by
  simp [modify, Function.update_apply]

@[simp] theorem modifyBalance_balance (l : Ledger) (a b : Address) (change : U256 → U256) :
    (l.modifyBalance a change).balance b = if b = a then change (l.balance a) else l.balance b := by
  simp [modifyBalance, Function.update_apply]

/-- Whether an account may vote for a candidate with that many votes. -/
def CanVote (l : Ledger) (toAddress : Address) (votes : U64) (a : Address) : Prop :=
  votes ≤ (l.ballot a).holdVotes ∧ (l.ballot toAddress).isCandidate ∧
    ((l.ballot a).record.support.card < 15 ∨ (l.ballot a).record toAddress ≠ 0)

/-- Whether an account may take that many votes back from a candidate. -/
def CanRemoveVote (l : Ledger) (toAddress : Address) (votes : U64) (a : Address) : Prop :=
  (l.ballot a).record toAddress ≠ 0 ∧ votes ≤ (l.ballot a).record toAddress ∧
    (l.ballot toAddress).isCandidate

open Classical in
/-- What each vote operation does to the ledger. -/
noncomputable def step (l : Ledger) : VoteOp → Ledger
  | .mortgage money a =>
    if money.setWidth 256 ≤ l.balance a then
      (l.modifyBalance a (· - (money / votesPreEth * votesPreEth).setWidth 256)).modify a
        fun b => { b with holdVotes := b.holdVotes + money / votesPreEth }
    else l
  | .redeem votes a =>
    if votes ≤ (l.ballot a).holdVotes then
      (l.modifyBalance a (· + (votes * votesPreEth).setWidth 256)).modify a
        fun b => { b with holdVotes := b.holdVotes - votes }
    else l
  | .candidateRegister _ _ a => l.modify a fun b => { b with isCandidate := true }
  | .candidateDeregister a =>
    if (l.ballot a).isCandidate then
      { l with ballot := fun b => (l.ballot b).withdrawFrom a }.modify a
        fun b => { b with isCandidate := false, receivedVote := 0 }
    else l
  | .vote toAddress votes a =>
    if l.CanVote toAddress votes a then
      (l.modify toAddress fun b => { b with receivedVote := b.receivedVote + votes }).modify a
        fun b => { b with
          holdVotes := b.holdVotes - votes
          record := b.record + Finsupp.single toAddress votes }
    else l
  | .removeVote toAddress votes a =>
    if l.CanRemoveVote toAddress votes a then
      (l.modify toAddress fun b => { b with receivedVote := b.receivedVote - votes }).modify a
        fun b => { b with
          holdVotes := b.holdVotes + votes
          record := b.record - Finsupp.single toAddress votes }
    else l
  | .send toAddress votes a =>
    if toAddress ≠ a ∧ votes ≤ (l.ballot a).holdVotes then
      (l.modify a fun b => { b with holdVotes := b.holdVotes - votes }).modify toAddress
        fun b => { b with holdVotes := b.holdVotes + votes }
    else l

end Ledger

namespace VoteInfo

/-- The numbers of a vote record. -/
noncomputable def ballot (info : VoteInfo) : Ballot where
  isCandidate := info.isCandidate
  receivedVote := info.receivedVote
  holdVotes := info.holdVotes
  record := Finsupp.onFinset info.voteRecord.keys.toFinset info.votesFor (by
    intro candidate used
    rw [List.mem_toFinset, Std.ExtTreeMap.mem_keys]
    by_contra absent
    exact used (Std.ExtTreeMap.getD_eq_fallback absent))

@[simp] theorem ballot_record (info : VoteInfo) (candidate : Address) :
    info.ballot.record candidate = info.votesFor candidate := rfl

@[simp] theorem ballot_stored (info : VoteInfo) : info.stored.ballot = info.ballot := by
  have same : info.stored.ballot.record = info.ballot.record := by
    ext1 candidate
    simp only [ballot_record, votesFor, stored, removeZeroVote,
      Std.ExtTreeMap.getD_eq_getD_getElem?, Std.ExtTreeMap.getElem?_filter']
    cases info.voteRecord[candidate]? with
    | none => rfl
    | some votes => by_cases zero : votes = 0#64 <;> simp [zero, Option.filter]
  exact Ballot.ext rfl rfl rfl same

/-- A record as it comes out of storage in every run: at most 15 entries and none of them zero. -/
structure Tidy (info : VoteInfo) : Prop where
  few : info.voteRecord.size ≤ 15
  nonzero : ∀ candidate : Address, info.voteRecord[candidate]? ≠ some 0

variable {info : VoteInfo}

theorem mem_voteRecord_iff (nonzero : ∀ candidate : Address, info.voteRecord[candidate]? ≠ some 0)
    (candidate : Address) : candidate ∈ info.voteRecord ↔ info.ballot.record candidate ≠ 0 := by
  have entry := nonzero candidate
  rw [ballot_record, votesFor, Std.ExtTreeMap.getD_eq_getD_getElem?,
    Std.ExtTreeMap.mem_iff_isSome_getElem?]
  cases found : info.voteRecord[candidate]? with
  | none => simp
  | some votes =>
    rw [found] at entry
    simpa using entry

theorem size_voteRecord (nonzero : ∀ candidate : Address, info.voteRecord[candidate]? ≠ some 0) :
    info.voteRecord.size = info.ballot.record.support.card := by
  have keys : info.ballot.record.support = info.voteRecord.keys.toFinset := by
    ext candidate
    rw [Finsupp.mem_support_iff, ← mem_voteRecord_iff nonzero, List.mem_toFinset,
      Std.ExtTreeMap.mem_keys]
  have distinct : info.voteRecord.keys.Nodup :=
    Std.ExtTreeMap.distinct_keys.imp fun different same => different (by simp [same])
  rw [keys, List.toFinset_card_of_nodup distinct, Std.ExtTreeMap.length_keys]

theorem nonzero_removeZeroVote (info : VoteInfo) (candidate : Address) :
    info.removeZeroVote.voteRecord[candidate]? ≠ some 0 := by
  intro found
  rw [removeZeroVote, Std.ExtTreeMap.getElem?_filter'] at found
  cases entry : info.voteRecord[candidate]? <;> simp_all [Option.filter]

theorem size_removeZeroVote (info : VoteInfo) :
    info.removeZeroVote.voteRecord.size = info.ballot.record.support.card := by
  have size := size_voteRecord (nonzero_removeZeroVote info)
  rw [size, ← ballot_stored info]
  rfl

theorem tidy_stored (few : info.ballot.record.support.card ≤ 15) :
    info.stored.Tidy where
  few := by
    have size := size_removeZeroVote info
    simp only [stored]
    omega
  nonzero := nonzero_removeZeroVote info

end VoteInfo

/-- A state shows a ledger: its balances and vote records have the ledger's numbers. -/
structure State.Shows (s : State) (l : Ledger) : Prop where
  balance : ∀ a, s.balance a = l.balance a
  ballot : ∀ a, (VoteInfo.load s a).ballot = l.ballot a
  tidy : ∀ a, (VoteInfo.load s a).Tidy

namespace State.Shows

variable {s : State} {l : Ledger}

variable {a : Address}

theorem loaded (shows : s.Shows l) {info : VoteInfo} (found : VoteInfo.load s a = info) :
    info.address = a ∧ info.ballot = l.ballot a ∧ info.Tidy := by
  subst found
  exact ⟨rfl, shows.ballot a, shows.tidy a⟩

theorem few (shows : s.Shows l) (a : Address) : (l.ballot a).record.support.card ≤ 15 := by
  rw [← shows.ballot a, ← VoteInfo.size_voteRecord (shows.tidy a).nonzero]
  exact (shows.tidy a).few

theorem save (shows : s.Shows l) (info : VoteInfo) (change : Ballot → Ballot)
    (own : info.address = a) (made : info.ballot = change (l.ballot a))
    (few : (change (l.ballot a)).record.support.card ≤ 15) :
    (VoteInfo.save s info).Shows (l.modify a change) := by
  subst own
  have small : info.removeZeroVote.voteRecord.size < 256 := by
    rw [VoteInfo.size_removeZeroVote, made]
    omega
  have there := VoteInfo.load_save s info small
  refine ⟨fun b => by simpa using shows.balance b, fun b => ?_, fun b => ?_⟩
  · by_cases own : b = info.address
    · subst own
      simp [there, made]
    · simp [VoteInfo.load_save_other s info small own, own, shows.ballot b]
  · by_cases own : b = info.address
    · subst own
      rw [there]
      exact VoteInfo.tidy_stored (made ▸ few)
    · rw [VoteInfo.load_save_other s info small own]
      exact shows.tidy b

theorem pay (shows : s.Shows l) {paid : State} (change : U256 → U256)
    (balances : ∀ b, paid.balance b = if a = b then change (s.balance a) else s.balance b)
    (storages : ∀ b, paid.storageMap b = s.storageMap b) :
    paid.Shows (l.modifyBalance a change) := by
  have same : ∀ b, VoteInfo.load paid b = VoteInfo.load s b :=
    VoteInfo.load_congr (storages voteInfoAddress)
  refine ⟨fun b => ?_, fun b => ?_, fun b => ?_⟩
  · rw [balances b, Ledger.modifyBalance_balance, shows.balance a, shows.balance b]
    simp only [eq_comm]
  · rw [same b]
    exact shows.ballot b
  · rw [same b]
    exact shows.tidy b

end State.Shows

end Etiam
