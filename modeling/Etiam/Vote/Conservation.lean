import Etiam.Vote.Refinement

/-! Wei and votes together are conserved, but for the votes that redeeming underpays. -/

namespace Etiam

/-- All votes an account has, held or recorded. -/
def Ballot.votes (b : Ballot) : ℕ := b.holdVotes.toNat + ∑ c, (b.record c).toNat

namespace Ballot

theorem votes_congr {b b' : Ballot} (hold : b'.holdVotes = b.holdVotes)
    (record : b'.record = b.record) : b'.votes = b.votes := by
  rw [votes, votes, hold, record]

theorem votes_blank : blank.votes = 0 := by
  have none : ∑ c, (blank.record c).toNat = 0 := Finset.sum_eq_zero fun c _ => rfl
  rw [votes, none]
  rfl

theorem hold_add_record_le (b : Ballot) (c : Address) :
    b.holdVotes.toNat + (b.record c).toNat ≤ b.votes := by
  have part := Finset.single_le_sum (f := fun c => (b.record c).toNat)
    (fun _ _ => Nat.zero_le _) (Finset.mem_univ c)
  simp only [votes]
  omega

theorem votes_of_entry {b b' : Ballot} (c : Address)
    (others : ∀ d, d ≠ c → b'.record d = b.record d)
    (moved : b'.holdVotes.toNat + (b'.record c).toNat =
      b.holdVotes.toNat + (b.record c).toNat) : b'.votes = b.votes := by
  have sums := sum_change (f := fun d => (b.record d).toNat) (g := fun d => (b'.record d).toNat) c
    (fun d apart => by rw [others d apart])
  simp only [votes]
  omega

theorem votes_withdrawFrom (b : Ballot) (fits : b.votes < 2 ^ 64) (c : Address) :
    (b.withdrawFrom c).votes = b.votes := by
  have part := b.hold_add_record_le c
  refine votes_of_entry c (fun d apart => Finsupp.erase_ne apart) ?_
  simp only [withdrawFrom, Finsupp.erase_same, BitVec.toNat_add]
  rw [Nat.mod_eq_of_lt (by omega)]
  simp

theorem votes_record (b : Ballot) (fits : b.votes < 2 ^ 64) (c : Address) {n : U64}
    (enough : n ≤ b.holdVotes) :
    Ballot.votes { b with
      holdVotes := b.holdVotes - n, record := b.record + Finsupp.single c n } = b.votes := by
  have part := b.hold_add_record_le c
  rw [BitVec.le_def] at enough
  refine votes_of_entry c (fun d apart => by simp [Ne.symm apart]) ?_
  simp only [Finsupp.add_apply, Finsupp.single_eq_same, BitVec.toNat_add,
    BitVec.toNat_sub_of_le (BitVec.le_def.mpr enough)]
  rw [Nat.mod_eq_of_lt (by omega)]
  omega

theorem votes_unrecord (b : Ballot) (fits : b.votes < 2 ^ 64) (c : Address) {n : U64}
    (enough : n ≤ b.record c) :
    Ballot.votes { b with
      holdVotes := b.holdVotes + n, record := b.record - Finsupp.single c n } = b.votes := by
  have part := b.hold_add_record_le c
  rw [BitVec.le_def] at enough
  refine votes_of_entry c (fun d apart => by simp [Ne.symm apart]) ?_
  simp only [Finsupp.sub_apply, Finsupp.single_eq_same, BitVec.toNat_add,
    BitVec.toNat_sub_of_le (BitVec.le_def.mpr enough)]
  rw [Nat.mod_eq_of_lt (by omega)]
  omega

end Ballot

namespace Ledger

/-- The votes of all accounts. -/
def totalVotes (l : Ledger) : ℕ := ∑ a, (l.ballot a).votes

/-- The wei of all accounts, with every vote counted at its price. -/
def totalWei (l : Ledger) : ℕ := ∑ a, (l.balance a).toNat + votesPreEth.toNat * l.totalVotes

theorem votes_le_totalVotes (l : Ledger) (a : Address) : (l.ballot a).votes ≤ l.totalVotes :=
  Finset.single_le_sum (f := fun a => (l.ballot a).votes) (fun _ _ => Nat.zero_le _)
    (Finset.mem_univ a)

theorem totalVotes_modify (l : Ledger) (a : Address) (change : Ballot → Ballot) :
    (l.modify a change).totalVotes + (l.ballot a).votes =
      l.totalVotes + (change (l.ballot a)).votes := by
  have sums := sum_change (f := fun b => (l.ballot b).votes)
    (g := fun b => ((l.modify a change).ballot b).votes) a
    (fun b apart => by rw [modify_ballot, if_neg apart])
  rwa [modify_ballot, if_pos rfl] at sums

theorem sum_balance_modifyBalance (l : Ledger) (a : Address) (change : U256 → U256) :
    ∑ b, ((l.modifyBalance a change).balance b).toNat + (l.balance a).toNat =
      ∑ b, (l.balance b).toNat + (change (l.balance a)).toNat := by
  have sums := sum_change (f := fun b => (l.balance b).toNat)
    (g := fun b => ((l.modifyBalance a change).balance b).toNat) a
    (fun b apart => by rw [modifyBalance_balance, if_neg apart])
  rwa [modifyBalance_balance, if_pos rfl] at sums

theorem totalVotes_modify_of_votes {l : Ledger} {a : Address} {change : Ballot → Ballot}
    (same : (change (l.ballot a)).votes = (l.ballot a).votes) :
    (l.modify a change).totalVotes = l.totalVotes := by
  have total := l.totalVotes_modify a change
  omega

theorem modifyReceived_keeps (l : Ledger) (a : Address) (received : U64 → U64) :
    let m := l.modify a fun b => { b with receivedVote := received b.receivedVote }
    m.totalVotes = l.totalVotes ∧ ∀ b, (m.ballot b).holdVotes = (l.ballot b).holdVotes ∧
      (m.ballot b).record = (l.ballot b).record := by
  intro m
  refine ⟨totalVotes_modify_of_votes (by exact Ballot.votes_congr rfl rfl), fun b => ?_⟩
  simp only [m, modify_ballot]
  split
  · next self => simp [self]
  · exact ⟨rfl, rfl⟩

/-- The operations that move votes and no wei. -/
def MovesVotes : VoteOp → Prop
  | .mortgage _ _ => False
  | .redeem _ _ => False
  | _ => True

theorem totalVotes_step {l : Ledger} (fits : l.totalVotes < 2 ^ 64) {op : VoteOp}
    (moves : MovesVotes op) : (l.step op).totalVotes = l.totalVotes := by
  have each : ∀ a, (l.ballot a).votes < 2 ^ 64 := fun a =>
    lt_of_le_of_lt (l.votes_le_totalVotes a) fits
  cases op with
  | mortgage money a => exact moves.elim
  | redeem votes a => exact moves.elim
  | candidateRegister name url a =>
    simp only [step]
    exact totalVotes_modify_of_votes (by exact Ballot.votes_congr rfl rfl)
  | candidateDeregister a =>
    simp only [step]
    split
    · rw [totalVotes_modify_of_votes (by exact Ballot.votes_congr rfl rfl)]
      exact Finset.sum_congr rfl fun b _ => (l.ballot b).votes_withdrawFrom (each b) a
    · rfl
  | vote toAddress votes a =>
    simp only [step]
    split
    · next can =>
      -- The votes received count for nothing here, so only the sender's ballot matters.
      obtain ⟨same, keeps⟩ := l.modifyReceived_keeps toAddress (· + votes)
      generalize (l.modify toAddress fun b =>
        { b with receivedVote := b.receivedVote + votes }) = m at same keeps ⊢
      rw [← same, totalVotes_modify_of_votes]
      exact (m.ballot a).votes_record
        (lt_of_le_of_lt (m.votes_le_totalVotes a) (by rwa [same])) toAddress
        ((keeps a).1 ▸ can.1)
    · rfl
  | removeVote toAddress votes a =>
    simp only [step]
    split
    · next can =>
      obtain ⟨same, keeps⟩ := l.modifyReceived_keeps toAddress (· - votes)
      generalize (l.modify toAddress fun b =>
        { b with receivedVote := b.receivedVote - votes }) = m at same keeps ⊢
      rw [← same, totalVotes_modify_of_votes]
      exact (m.ballot a).votes_unrecord
        (lt_of_le_of_lt (m.votes_le_totalVotes a) (by rwa [same])) toAddress
        ((keeps a).2 ▸ can.2.1)
    · rfl
  | send toAddress votes a =>
    simp only [step]
    split
    · next can =>
      obtain ⟨apart, enough⟩ := can
      -- The receiver has room, because both accounts' votes are part of all votes.
      have both := add_le_sum (fun b => (l.ballot b).votes) apart
      have debit := l.totalVotes_modify a fun b => { b with holdVotes := b.holdVotes - votes }
      have credit := (l.modify a fun b =>
        { b with holdVotes := b.holdVotes - votes }).totalVotes_modify
        toAddress fun b => { b with holdVotes := b.holdVotes + votes }
      rw [modify_ballot, if_neg apart] at credit
      change (l.ballot toAddress).votes + (l.ballot a).votes ≤ l.totalVotes at both
      rw [BitVec.le_def] at enough
      simp only [Ballot.votes, BitVec.toNat_sub_of_le (BitVec.le_def.mpr enough)] at debit
      simp only [Ballot.votes, BitVec.toNat_add] at both credit
      rw [Nat.mod_eq_of_lt (by omega)] at credit
      omega
    · rfl

theorem totalVotes_modifyHold (l : Ledger) (a : Address) (hold : U64 → U64) :
    (l.modify a fun b => { b with holdVotes := hold b.holdVotes }).totalVotes +
        (l.ballot a).holdVotes.toNat =
      l.totalVotes + (hold (l.ballot a).holdVotes).toNat := by
  have total := l.totalVotes_modify a fun b => { b with holdVotes := hold b.holdVotes }
  simp only [Ballot.votes] at total
  omega

theorem votesPreEth_toNat : votesPreEth.toNat = 10000000000000000 := rfl

/-- What must hold for an operation to give and take the same value. -/
def Exact (l : Ledger) : VoteOp → Prop
  | .mortgage money a => money.setWidth 256 ≤ l.balance a →
    (l.ballot a).holdVotes.toNat + (money / votesPreEth).toNat < 2 ^ 64
  | .redeem votes a => votes ≤ (l.ballot a).holdVotes →
    votes.toNat * votesPreEth.toNat < 2 ^ 64 ∧
      (l.balance a).toNat + votes.toNat * votesPreEth.toNat < 2 ^ 256
  | _ => True

theorem purchase_exact_iff {wei wei' balance total total' hold n : ℕ}
    (paid : wei' + balance = wei + (balance - n * 10000000000000000))
    (covered : n * 10000000000000000 ≤ balance)
    (held : total' + hold = total + (hold + n) % 2 ^ 64) (holdSmall : hold < 2 ^ 64)
    (small : n < 2 ^ 64) :
    wei' + 10000000000000000 * total' = wei + 10000000000000000 * total ↔ hold + n < 2 ^ 64 := by
  constructor
  · intro same
    by_contra large
    rw [Nat.mod_eq_sub_mod (by omega), Nat.mod_eq_of_lt (by omega)] at held
    omega
  · intro fits
    rw [Nat.mod_eq_of_lt fits] at held
    omega

theorem sale_exact_iff {wei wei' balance total total' hold n : ℕ}
    (paid : wei' + balance = wei + (balance + n * 10000000000000000 % 2 ^ 64) % 2 ^ 256)
    (held : total' + hold = total + (hold - n)) (enough : n ≤ hold) :
    wei' + 10000000000000000 * total' = wei + 10000000000000000 * total ↔
      n * 10000000000000000 < 2 ^ 64 ∧ balance + n * 10000000000000000 < 2 ^ 256 := by
  have price := Nat.mod_lt (n * 10000000000000000) (show 0 < 2 ^ 64 by norm_num)
  have lower := Nat.mod_le (n * 10000000000000000) (2 ^ 64)
  have credit := Nat.mod_le (balance + n * 10000000000000000 % 2 ^ 64) (2 ^ 256)
  have bound := Nat.mod_lt (balance + n * 10000000000000000 % 2 ^ 64)
    (show 0 < 2 ^ 256 by norm_num)
  constructor
  · -- What is credited never exceeds the wrapped price, and that never exceeds the price.
    intro same
    generalize (balance + n * 10000000000000000 % 2 ^ 64) % 2 ^ 256 = credited at *
    generalize n * 10000000000000000 % 2 ^ 64 = wrapped at *
    omega
  · rintro ⟨priceFits, balanceFits⟩
    rw [Nat.mod_eq_of_lt priceFits, Nat.mod_eq_of_lt balanceFits] at paid
    omega

theorem totalWei_mortgage_iff (l : Ledger) (money : U64) (a : Address) :
    (l.step (.mortgage money a)).totalWei = l.totalWei ↔ l.Exact (.mortgage money a) := by
  simp only [step, Exact]
  split
  · next covered =>
    simp only [covered, forall_const]
    have paid := l.sum_balance_modifyBalance a
      (· - (money / votesPreEth * votesPreEth).setWidth 256)
    have held := (l.modifyBalance a
      (· - (money / votesPreEth * votesPreEth).setWidth 256)).totalVotes_modifyHold a
        (· + money / votesPreEth)
    have price := VoteManager.toNat_roundedDown money votesPreEth
    have within := (VoteManager.roundedDown_le money votesPreEth).trans (BitVec.le_def.mp covered)
    rw [BitVec.toNat_sub_of_le (BitVec.le_def.mpr (price ▸ within)), price] at paid
    rw [BitVec.toNat_add] at held
    rw [votesPreEth_toNat] at paid within
    exact purchase_exact_iff paid within held (BitVec.isLt _) (BitVec.isLt _)
  · next short => simp [short]

theorem totalWei_redeem_iff (l : Ledger) (votes : U64) (a : Address) :
    (l.step (.redeem votes a)).totalWei = l.totalWei ↔ l.Exact (.redeem votes a) := by
  simp only [step, Exact]
  split
  · next enough =>
    simp only [enough, forall_const]
    have paid := l.sum_balance_modifyBalance a (· + (votes * votesPreEth).setWidth 256)
    have held :=
      (l.modifyBalance a (· + (votes * votesPreEth).setWidth 256)).totalVotes_modifyHold a
      (· - votes)
    rw [modifyBalance_ballot, BitVec.toNat_sub_of_le enough] at held
    rw [BitVec.le_def] at enough
    have price : ((votes * votesPreEth).setWidth 256).toNat =
        votes.toNat * 10000000000000000 % 2 ^ 64 := by
      rw [BitVec.toNat_setWidth, BitVec.toNat_mul, votesPreEth_toNat]
      exact Nat.mod_eq_of_lt ((Nat.mod_lt _ (by norm_num)).trans (by norm_num))
    rw [BitVec.toNat_add, price] at paid
    rw [votesPreEth_toNat]
    exact sale_exact_iff paid held enough
  · next short => simp [short]

/-- An operation keeps the value of wei and votes exactly when it is exact. -/
theorem totalWei_step_iff {l : Ledger} (fits : l.totalVotes < 2 ^ 64) (op : VoteOp) :
    (l.step op).totalWei = l.totalWei ↔ l.Exact op := by
  -- Only buying and selling touch balances; the rest moves votes that have room.
  have moving : ∀ {op : VoteOp}, MovesVotes op → (l.step op).balance = l.balance →
      (l.step op).totalWei = l.totalWei := by
    intro op moves balance
    simp only [totalWei, balance, totalVotes_step fits moves]
  cases op with
  | mortgage money a => exact l.totalWei_mortgage_iff money a
  | redeem votes a => exact l.totalWei_redeem_iff votes a
  | candidateRegister name url a => exact iff_of_true (moving trivial rfl) trivial
  | candidateDeregister a =>
    refine iff_of_true (moving trivial ?_) trivial
    simp only [step]
    split <;> rfl
  | vote toAddress votes a =>
    refine iff_of_true (moving trivial ?_) trivial
    simp only [step]
    split <;> rfl
  | removeVote toAddress votes a =>
    refine iff_of_true (moving trivial ?_) trivial
    simp only [step]
    split <;> rfl
  | send toAddress votes a =>
    refine iff_of_true (moving trivial ?_) trivial
    simp only [step]
    split <;> rfl

end Ledger

namespace State

/-- The votes of all accounts in the storage of the vote account. -/
def totalVotes (s : State) : ℕ :=
  ∑ a, ((VoteInfo.load s a).holdVotes.toNat + ∑ c, ((VoteInfo.load s a).votesFor c).toNat)

/-- The wei of all accounts, with every vote counted at its price. -/
def totalWei (s : State) : ℕ := ∑ a, (s.balance a).toNat + votesPreEth.toNat * s.totalVotes

/-- What must hold for an operation to give and take the same value. -/
def Exact (s : State) : VoteOp → Prop
  | .mortgage money a => money.setWidth 256 ≤ s.balance a →
    (VoteInfo.load s a).holdVotes.toNat + (money / votesPreEth).toNat < 2 ^ 64
  | .redeem votes a => votes ≤ (VoteInfo.load s a).holdVotes →
    votes.toNat * votesPreEth.toNat < 2 ^ 64 ∧
      (s.balance a).toNat + votes.toNat * votesPreEth.toNat < 2 ^ 256
  | _ => True

variable {s : State} {l : Ledger}

theorem Shows.totalVotes (shows : s.Shows l) : s.totalVotes = l.totalVotes := by
  simp only [State.totalVotes, Ledger.totalVotes, ← shows.ballot, Ballot.votes,
    VoteInfo.ballot_record]
  rfl

theorem Shows.totalWei (shows : s.Shows l) : s.totalWei = l.totalWei := by
  simp only [State.totalWei, Ledger.totalWei, shows.totalVotes, shows.balance]

theorem Shows.exact_iff (shows : s.Shows l) (op : VoteOp) : s.Exact op ↔ l.Exact op := by
  have hold : ∀ a, (VoteInfo.load s a).holdVotes = (l.ballot a).holdVotes := by
    intro a
    rw [← shows.ballot a]
    rfl
  cases op <;> simp only [State.Exact, Ledger.Exact, hold, shows.balance]

end State

/-- From every reachable state whose votes fit in 64 bits, exact operations alone keep the value. -/
theorem totalWei_run_iff {start s : State} {ops : List VoteOp} (empty : EmptyVoteStorage start)
    (reached : runVoteOps start ops = .ok s) (fits : s.totalVotes < 2 ^ 64) (op : VoteOp) :
    ∃ t, op.run s = .ok t ∧ (t.totalWei = s.totalWei ↔ s.Exact op) := by
  obtain ⟨s', ran, shows⟩ := shows_runVoteOps empty.shows ops
  obtain rfl : s' = s := Except.ok.inj (ran.symm.trans reached)
  obtain ⟨t, after, shown⟩ := op.shows_run shows
  refine ⟨t, after, ?_⟩
  rw [shown.totalWei, shows.totalWei, shows.exact_iff op]
  exact Ledger.totalWei_step_iff (by rwa [← shows.totalVotes]) op

namespace Ledger

theorem totalVotes_mortgage_le (l : Ledger) (money : U64) (a : Address) :
    (l.step (.mortgage money a)).totalVotes ≤ l.totalVotes + (money / votesPreEth).toNat := by
  simp only [step]
  split
  · have held := (l.modifyBalance a
      (· - (money / votesPreEth * votesPreEth).setWidth 256)).totalVotes_modifyHold a
        (· + money / votesPreEth)
    have wrapped := BitVec.toNat_add (l.ballot a).holdVotes (money / votesPreEth)
    have lower := Nat.mod_le ((l.ballot a).holdVotes.toNat + (money / votesPreEth).toNat) (2 ^ 64)
    simp only [modifyBalance_ballot, wrapped] at held
    have same : (l.modifyBalance a
      (· - (money / votesPreEth * votesPreEth).setWidth 256)).totalVotes = l.totalVotes := rfl
    omega
  · omega

theorem mortgage_covered (l : Ledger) (money : U64) {a : Address}
    (covered : money.setWidth 256 ≤ l.balance a) :
    (l.step (.mortgage money a)).balance a =
        l.balance a - (money / votesPreEth * votesPreEth).setWidth 256 ∧
      ((l.step (.mortgage money a)).ballot a).holdVotes =
        (l.ballot a).holdVotes + money / votesPreEth := by
  simp [step, covered]

end Ledger

theorem shows_twoMortgages :
    ∃ s l, runVoteOps (State.funded 5 100000000000000000000)
        [.mortgage 18440000000000000000 5, .mortgage 18440000000000000000 5] = .ok s ∧
      s.Shows l ∧ l.totalVotes < 2 ^ 64 ∧ l.balance 5 = 63120000000000000000 ∧
      (l.ballot 5).holdVotes = 3688 := by
  have shows := (State.emptyVoteStorage_funded 5 100000000000000000000).shows
  set start : Ledger := ⟨(State.funded 5 100000000000000000000).balance, fun _ => .blank⟩
  obtain ⟨s, ran, shown⟩ := shows_runVoteOps shows
    [.mortgage 18440000000000000000 5, .mortgage 18440000000000000000 5]
  have funds : start.balance 5 = 100000000000000000000 := by decide +kernel
  have votes : (18440000000000000000 / votesPreEth : U64) = 1844 := by decide +kernel
  have first := start.mortgage_covered 18440000000000000000 (a := 5)
    (by rw [funds]; decide)
  set middle := start.step (.mortgage 18440000000000000000 5)
  rw [funds, votes] at first
  have second := middle.mortgage_covered 18440000000000000000 (a := 5)
    (by rw [first.1]; decide)
  rw [first.1, first.2, votes] at second
  refine ⟨s, _, ran, shown, ?_, second.1.trans (by decide), second.2.trans (by decide)⟩
  -- No account has votes at first, and each purchase adds at most its 1844.
  have none : start.totalVotes = 0 := Finset.sum_eq_zero fun a _ => Ballot.votes_blank
  have once : middle.totalVotes ≤ _ := start.totalVotes_mortgage_le 18440000000000000000 5
  have twice := middle.totalVotes_mortgage_le 18440000000000000000 5
  rw [votes, none] at once
  rw [votes] at twice
  change (middle.step (.mortgage 18440000000000000000 5)).totalVotes < 2 ^ 64
  have bought : (1844 : U64).toNat = 1844 := rfl
  omega

/-- Redeeming 1844 votes at once is as exact as the rule says. -/
theorem totalWei_run_iff_redeem :
    ∃ s, EmptyVoteStorage (State.funded 5 100000000000000000000) ∧
      runVoteOps (State.funded 5 100000000000000000000)
        [.mortgage 18440000000000000000 5, .mortgage 18440000000000000000 5] = .ok s ∧
      s.totalVotes < 2 ^ 64 ∧ ∃ t, (VoteOp.redeem 1844 5).run s = .ok t ∧
        (t.totalWei = s.totalWei ↔ s.Exact (.redeem 1844 5)) := by
  obtain ⟨s, l, ran, shown, fits, -⟩ := shows_twoMortgages
  rw [← shown.totalVotes] at fits
  have empty := State.emptyVoteStorage_funded 5 100000000000000000000
  exact ⟨s, empty, ran, fits, totalWei_run_iff empty ran fits _⟩

/-- Redeeming 1845 votes pays 0.003 ether for what cost 18.45 ether. -/
theorem redeem_underpays :
    ∃ s t, EmptyVoteStorage (State.funded 5 100000000000000000000) ∧
      runVoteOps (State.funded 5 100000000000000000000)
        [.mortgage 18440000000000000000 5, .mortgage 18440000000000000000 5] = .ok s ∧
      s.totalVotes < 2 ^ 64 ∧ (VoteOp.redeem 1845 5).run s = .ok t ∧
      s.balance 5 = 63120000000000000000 ∧ t.balance 5 = 63123255926290448384 ∧
      t.totalWei ≠ s.totalWei := by
  obtain ⟨s, l, ran, shown, fits, funds, hold⟩ := shows_twoMortgages
  obtain ⟨t, after, paid⟩ := VoteOp.shows_run shown (.redeem 1845 5)
  have enough : (1845 : U64) ≤ (l.ballot 5).holdVotes := by rw [hold]; decide
  refine ⟨s, t, State.emptyVoteStorage_funded 5 _, ran, shown.totalVotes ▸ fits, after,
    (shown.balance 5).trans funds, ?_, ?_⟩
  · rw [paid.balance 5]
    simp only [Ledger.step, enough, if_true, Ledger.modify_balance, Ledger.modifyBalance_balance,
      funds]
    decide
  · rw [paid.totalWei, shown.totalWei, ne_eq, Ledger.totalWei_step_iff fits]
    intro exact
    have price := (exact enough).1
    rw [Ledger.votesPreEth_toNat] at price
    exact absurd price (by decide)

namespace Ledger

theorem purchase_le {wei wei' balance total total' hold n : ℕ}
    (paid : wei' + balance = wei + (balance - n * 10000000000000000))
    (covered : n * 10000000000000000 ≤ balance)
    (held : total' + hold = total + (hold + n) % 2 ^ 64) :
    wei' + 10000000000000000 * total' ≤ wei + 10000000000000000 * total := by
  have wrapped := Nat.mod_le (hold + n) (2 ^ 64)
  omega

theorem sale_le {wei wei' balance total total' hold n : ℕ}
    (paid : wei' + balance = wei + (balance + n * 10000000000000000 % 2 ^ 64) % 2 ^ 256)
    (held : total' + hold = total + (hold - n)) (enough : n ≤ hold) :
    wei' + 10000000000000000 * total' ≤ wei + 10000000000000000 * total := by
  have price := Nat.mod_le (n * 10000000000000000) (2 ^ 64)
  have credit := Nat.mod_le (balance + n * 10000000000000000 % 2 ^ 64) (2 ^ 256)
  generalize (balance + n * 10000000000000000 % 2 ^ 64) % 2 ^ 256 = credited at *
  omega

/-- An operation creates no value: what wraps around is lost. -/
theorem totalWei_step_le {l : Ledger} (fits : l.totalVotes < 2 ^ 64) (op : VoteOp) :
    (l.step op).totalWei ≤ l.totalWei := by
  have exact_le : ∀ {op}, l.Exact op → (l.step op).totalWei ≤ l.totalWei :=
    fun exact => ((totalWei_step_iff fits _).mpr exact).le
  cases op with
  | mortgage money a =>
    by_cases covered : money.setWidth 256 ≤ l.balance a
    · have paid := l.sum_balance_modifyBalance a
        (· - (money / votesPreEth * votesPreEth).setWidth 256)
      have held := (l.modifyBalance a
        (· - (money / votesPreEth * votesPreEth).setWidth 256)).totalVotes_modifyHold a
          (· + money / votesPreEth)
      have price := VoteManager.toNat_roundedDown money votesPreEth
      have within := (VoteManager.roundedDown_le money votesPreEth).trans (BitVec.le_def.mp covered)
      rw [BitVec.toNat_sub_of_le (BitVec.le_def.mpr (price ▸ within)), price] at paid
      rw [BitVec.toNat_add] at held
      simp only [step, covered, if_true]
      exact purchase_le paid within held
    · exact exact_le fun other => absurd other covered
  | redeem votes a =>
    by_cases enough : votes ≤ (l.ballot a).holdVotes
    · have paid := l.sum_balance_modifyBalance a (· + (votes * votesPreEth).setWidth 256)
      have held := (l.modifyBalance a
        (· + (votes * votesPreEth).setWidth 256)).totalVotes_modifyHold a (· - votes)
      rw [modifyBalance_ballot, BitVec.toNat_sub_of_le enough] at held
      have price : ((votes * votesPreEth).setWidth 256).toNat =
          votes.toNat * 10000000000000000 % 2 ^ 64 := by
        rw [BitVec.toNat_setWidth, BitVec.toNat_mul, votesPreEth_toNat]
        exact Nat.mod_eq_of_lt ((Nat.mod_lt _ (by norm_num)).trans (by norm_num))
      rw [BitVec.toNat_add, price] at paid
      simp only [step, enough, if_true]
      exact sale_le paid held (BitVec.le_def.mp enough)
    · exact exact_le fun other => absurd other enough
  | candidateRegister name url a => exact exact_le trivial
  | candidateDeregister a => exact exact_le trivial
  | vote toAddress votes a => exact exact_le trivial
  | removeVote toAddress votes a => exact exact_le trivial
  | send toAddress votes a => exact exact_le trivial

theorem totalVotes_lt {l : Ledger} (scarce : l.totalWei < votesPreEth.toNat * 2 ^ 64) :
    l.totalVotes < 2 ^ 64 := by
  rw [totalWei, votesPreEth_toNat] at scarce
  omega

theorem totalWei_run_le {l : Ledger} (scarce : l.totalWei < votesPreEth.toNat * 2 ^ 64)
    (ops : List VoteOp) : (l.run ops).totalWei ≤ l.totalWei := by
  induction ops generalizing l with
  | nil => exact le_rfl
  | cons op rest ih =>
    have step := totalWei_step_le (totalVotes_lt scarce) op
    exact (ih (step.trans_lt scarce)).trans step

end Ledger

/-- Along a run of vote operations the value never rises and the votes never wrap, if there is
less wei at first than 2 ^ 64 votes cost. -/
theorem totalWei_never_rises {start : State} (empty : EmptyVoteStorage start)
    (scarce : ∑ a, (start.balance a).toNat < votesPreEth.toNat * 2 ^ 64)
    (ops more : List VoteOp) :
    ∃ s t, runVoteOps start ops = .ok s ∧ runVoteOps s more = .ok t ∧
      t.totalWei ≤ s.totalWei ∧ s.totalVotes < 2 ^ 64 := by
  obtain ⟨s, ran, shows⟩ := shows_runVoteOps empty.shows ops
  obtain ⟨t, went, shown⟩ := shows_runVoteOps shows more
  set first : Ledger := ⟨start.balance, fun _ => .blank⟩
  have none : first.totalVotes = 0 := Finset.sum_eq_zero fun a _ => Ballot.votes_blank
  have wei : first.totalWei < votesPreEth.toNat * 2 ^ 64 := by
    rw [Ledger.totalWei, none, Nat.mul_zero, Nat.add_zero]
    exact scarce
  have less := (Ledger.totalWei_run_le wei ops).trans_lt wei
  refine ⟨s, t, ran, went, ?_, ?_⟩
  · rw [shows.totalWei, shown.totalWei]
    exact Ledger.totalWei_run_le less more
  · rw [shows.totalVotes]
    exact Ledger.totalVotes_lt less

/-- An account with 100 ether sells what it buys for no more than it paid. -/
theorem totalWei_never_rises_redeem :
    ∃ s t, runVoteOps (State.funded 5 100000000000000000000)
        [.mortgage 18440000000000000000 5] = .ok s ∧
      runVoteOps s [.redeem 1844 5] = .ok t ∧ t.totalWei ≤ s.totalWei ∧ s.totalVotes < 2 ^ 64 := by
  refine totalWei_never_rises (State.emptyVoteStorage_funded 5 _) ?_ _ _
  rw [Finset.sum_eq_single (5 : Address)]
  · decide +kernel
  · intro b _ apart
    have other : 5#160 ≠ b := Ne.symm apart
    simp [State.balance, State.account, State.funded, other]
  · exact fun absent => absurd (Finset.mem_univ _) absent

end Etiam
