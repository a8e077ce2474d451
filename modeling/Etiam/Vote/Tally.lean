import Etiam.Vote.Refinement

/-! Votes received are the votes recorded, in every run of vote operations. -/

namespace Etiam

namespace Ledger

/-- The votes received are the sum of the votes recorded, and only candidates have any. -/
structure Tallied (l : Ledger) : Prop where
  sum : ∀ c, (l.ballot c).receivedVote = ∑ a, (l.ballot a).record c
  unvoted : ∀ c, (l.ballot c).isCandidate = false → ∀ a, (l.ballot a).record c = 0

theorem tallied_blank (balance : Address → U256) : Tallied ⟨balance, fun _ => .blank⟩ where
  sum _ := (Finset.sum_eq_zero fun _ _ => rfl).symm
  unvoted _ _ _ := rfl

variable {l : Ledger}

variable (tallied : l.Tallied)

include tallied

theorem Tallied.modify (a : Address) {change : Ballot → Ballot}
    (received : ∀ b, (change b).receivedVote = b.receivedVote)
    (record : ∀ b, (change b).record = b.record)
    (candidate : ∀ b, b.isCandidate = true → (change b).isCandidate = true) :
    (l.modify a change).Tallied := by
  have records : ∀ b, ((l.modify a change).ballot b).record = (l.ballot b).record := by
    intro b
    rw [modify_ballot]
    split
    · next own => rw [record, own]
    · rfl
  refine ⟨fun c => ?_, fun c struck b => ?_⟩
  · have kept : ((l.modify a change).ballot c).receivedVote = (l.ballot c).receivedVote := by
      rw [modify_ballot]
      split
      · next own => rw [received, own]
      · rfl
    rw [kept, tallied.sum c]
    exact Finset.sum_congr rfl fun b _ => by rw [records]
  · rw [records]
    refine tallied.unvoted c ?_ b
    by_contra listed
    rw [Bool.not_eq_false] at listed
    rw [modify_ballot] at struck
    split at struck
    · next own =>
      rw [candidate _ (own ▸ listed)] at struck
      cases struck
    · rw [listed] at struck
      cases struck

theorem Tallied.modifyHold (a : Address) (hold : U64 → U64) :
    (l.modify a fun b => { b with holdVotes := hold b.holdVotes }).Tallied :=
  tallied.modify a (fun _ => rfl) (fun _ => rfl) (fun _ listed => listed)

theorem Tallied.modifyBalance (a : Address) (change : U256 → U256) :
    (l.modifyBalance a change).Tallied :=
  ⟨tallied.sum, tallied.unvoted⟩

theorem Tallied.transfer {toAddress : Address} (candidate : (l.ballot toAddress).isCandidate = true)
    (a : Address) (votes : U64) (hold : U64 → U64) :
    ((l.modify toAddress fun b => { b with receivedVote := b.receivedVote + votes }).modify a
      fun b => { b with
        holdVotes := hold b.holdVotes
        record := b.record + Finsupp.single toAddress votes }).Tallied := by
  set m := (l.modify toAddress fun b => { b with receivedVote := b.receivedVote + votes }).modify a
    fun b => { b with
      holdVotes := hold b.holdVotes
      record := b.record + Finsupp.single toAddress votes } with after
  have received : ∀ c, (m.ballot c).receivedVote =
      (l.ballot c).receivedVote + if c = toAddress then votes else 0 := by
    intro c
    rw [after, modify_ballot, modify_ballot, modify_ballot]
    split_ifs <;> simp_all
  have record : ∀ b c, (m.ballot b).record c = (l.ballot b).record c +
      if b = a then Finsupp.single toAddress votes c else 0 := by
    intro b c
    rw [after, modify_ballot, modify_ballot, modify_ballot]
    split_ifs <;> simp_all
  have listed : ∀ c, (m.ballot c).isCandidate = (l.ballot c).isCandidate := by
    intro c
    rw [after, modify_ballot, modify_ballot, modify_ballot]
    split_ifs <;> simp_all
  constructor
  · intro c
    have added : ∑ b, (if b = a then Finsupp.single toAddress votes c else 0) =
        if c = toAddress then votes else 0 := by
      rw [Finset.sum_ite_eq', if_pos (Finset.mem_univ a), Finsupp.single_apply]
      simp only [eq_comm]
    simp only [received, record, Finset.sum_add_distrib, added, tallied.sum c]
  · intro c struck b
    rw [listed] at struck
    have apart : toAddress ≠ c := by
      rintro rfl
      rw [candidate] at struck
      cases struck
    simp [record, tallied.unvoted c struck b, apart]

theorem Tallied.deregister (a : Address) :
    (({ l with ballot := fun b => (l.ballot b).withdrawFrom a } : Ledger).modify a
      fun b => { b with isCandidate := false, receivedVote := 0 }).Tallied := by
  set m := ({ l with ballot := fun b => (l.ballot b).withdrawFrom a } : Ledger).modify a
    fun b => { b with isCandidate := false, receivedVote := 0 } with after
  have record : ∀ b, (m.ballot b).record = (l.ballot b).record.erase a := by
    intro b
    rw [after, modify_ballot]
    split_ifs <;> simp_all [Ballot.withdrawFrom]
  have others : ∀ c, c ≠ a → (m.ballot c).receivedVote = (l.ballot c).receivedVote ∧
      (m.ballot c).isCandidate = (l.ballot c).isCandidate := by
    intro c apart
    simp [after, apart, Ballot.withdrawFrom]
  have own : (m.ballot a).receivedVote = 0 := by simp [after]
  constructor
  · intro c
    by_cases self : c = a
    · subst self
      rw [own, Finset.sum_eq_zero]
      intro b _
      rw [record, Finsupp.erase_same]
    · simp [record, Finsupp.erase_ne self, (others c self).1, tallied.sum c]
  · intro c struck b
    by_cases self : c = a
    · simp [record, self]
    · rw [record, Finsupp.erase_ne self]
      rw [(others c self).2] at struck
      exact tallied.unvoted c struck b

theorem tallied_step (op : VoteOp) : (l.step op).Tallied := by
  cases op with
  | mortgage money a =>
    simp only [step]
    split
    · exact (tallied.modifyBalance a _).modifyHold a (· + money / votesPreEth)
    · exact tallied
  | redeem votes a =>
    simp only [step]
    split
    · exact (tallied.modifyBalance a _).modifyHold a (· - votes)
    · exact tallied
  | candidateRegister name url a =>
    simp only [step]
    refine tallied.modify a (fun _ => rfl) (fun _ => rfl) (fun _ _ => rfl)
  | candidateDeregister a =>
    simp only [step]
    split
    · exact tallied.deregister a
    · exact tallied
  | vote toAddress votes a =>
    simp only [step]
    split
    · next can => exact tallied.transfer can.2.1 a votes (· - votes)
    · exact tallied
  | removeVote toAddress votes a =>
    simp only [step]
    split
    · next can =>
      -- Taking votes back is adding their negation.
      have moved := tallied.transfer can.2.2 a (-votes) (· + votes)
      simpa only [Finsupp.single_neg, ← sub_eq_add_neg] using moved
    · exact tallied
  | send toAddress votes a =>
    simp only [step]
    split
    · exact (tallied.modifyHold a (· - votes)).modifyHold toAddress (· + votes)
    · exact tallied

theorem tallied_run (ops : List VoteOp) : (l.run ops).Tallied := by
  induction ops generalizing l with
  | nil => exact tallied
  | cons op rest ih => exact ih (tallied_step tallied op)

end Ledger

/-- What a vote storage owes its readers: tallies that match the records, and tidy records. -/
structure State.VotesTally (t : State) : Prop where
  received : ∀ c, (VoteInfo.load t c).isCandidate = true →
    (VoteInfo.load t c).receivedVote = ∑ a, (VoteInfo.load t a).votesFor c
  unvoted : ∀ c, (VoteInfo.load t c).isCandidate = false →
    (VoteInfo.load t c).receivedVote = 0 ∧ ∀ a, c ∉ (VoteInfo.load t a).voteRecord
  few : ∀ a, (VoteInfo.load t a).voteRecord.size ≤ 15
  nonzero : ∀ a c : Address, (VoteInfo.load t a).voteRecord[c]? ≠ some 0

/-- Every run from empty vote storage succeeds and leaves tallies that match all records. -/
theorem votesTally_runVoteOps {s : State} (empty : EmptyVoteStorage s) (ops : List VoteOp) :
    ∃ t, runVoteOps s ops = .ok t ∧ t.VotesTally := by
  obtain ⟨t, ran, shown⟩ := shows_runVoteOps empty.shows ops
  have tallied := Ledger.tallied_run (Ledger.tallied_blank s.balance) ops
  set l := Ledger.run ⟨s.balance, fun _ => .blank⟩ ops
  have sum : ∀ c, (VoteInfo.load t c).receivedVote = ∑ a, (VoteInfo.load t a).votesFor c := by
    intro c
    have held := tallied.sum c
    simp only [← shown.ballot] at held
    exact held
  have none : ∀ c, (VoteInfo.load t c).isCandidate = false →
      ∀ a, (VoteInfo.load t a).votesFor c = 0 := by
    intro c struck a
    have unvoted := tallied.unvoted c
    simp only [← shown.ballot] at unvoted
    exact unvoted struck a
  refine ⟨t, ran, fun c _ => sum c, fun c struck => ⟨?_, fun a => ?_⟩,
    fun a => (shown.tidy a).few, fun a => (shown.tidy a).nonzero⟩
  · exact (sum c).trans (Finset.sum_eq_zero fun a _ => none c struck a)
  · rw [VoteInfo.mem_voteRecord_iff (shown.tidy a).nonzero]
    exact not_not.mpr (none c struck a)

/-- Two accounts buy votes, one runs and is voted for by both, and then gives up. -/
theorem votesTally_election :
    EmptyVoteStorage (State.funded 5 100000000000000000000) ∧
      ∃ t, runVoteOps (State.funded 5 100000000000000000000)
        [.mortgage 10000000000000000000 5, .send 7 100 5, .candidateRegister .empty .empty 7,
          .vote 7 30 5, .vote 7 20 7, .candidateDeregister 7] = .ok t ∧ t.VotesTally :=
  ⟨State.emptyVoteStorage_funded 5 _,
    votesTally_runVoteOps (State.emptyVoteStorage_funded 5 _) _⟩

end Etiam
