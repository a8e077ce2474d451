import Etiam.Vote.Ledger

/-! Each vote operation of the code does to the ledger what the bookkeeping says. -/

namespace Etiam

namespace VoteManager

theorem toNat_roundedDown (money price : U64) :
    ((money / price * price).setWidth 256).toNat = (money / price).toNat * price.toNat := by
  have down := Nat.div_mul_le_self money.toNat price.toNat
  have bound : money.toNat < 2 ^ 64 := money.isLt
  simp only [BitVec.toNat_setWidth, BitVec.toNat_mul, BitVec.toNat_udiv]
  generalize money.toNat / price.toNat * price.toNat = rounded at down ⊢
  omega

theorem roundedDown_le (money price : U64) :
    (money / price).toNat * price.toNat ≤ (money.setWidth 256).toNat := by
  have down := Nat.div_mul_le_self money.toNat price.toNat
  have bound : money.toNat < 2 ^ 64 := money.isLt
  simp only [BitVec.toNat_setWidth, BitVec.toNat_udiv]
  generalize money.toNat / price.toNat * price.toNat = rounded at down ⊢
  omega

variable {s : State} {l : Ledger}

theorem ballot_recordVoteTo (info : VoteInfo) (toAddress : Address) (votes : U64) :
    (info.recordVoteTo toAddress votes).ballot =
      { info.ballot with record := info.ballot.record + Finsupp.single toAddress votes } := by
  refine Ballot.ext rfl rfl rfl (Finsupp.ext fun candidate => ?_)
  simp only [VoteInfo.ballot_record, VoteInfo.recordVoteTo, VoteInfo.votesFor,
    Std.ExtTreeMap.getD_insert, Finsupp.add_apply, Finsupp.single_apply]
  by_cases same : toAddress = candidate
  · simp [same]
  · simp [same]

/-- A new entry is made only where fewer than 15 are in use. -/
theorem card_support_add_single {record : Address →₀ U64} {candidate : Address} (votes : U64)
    (few : record.support.card ≤ 15)
    (room : record.support.card < 15 ∨ record candidate ≠ 0) :
    (record + Finsupp.single candidate votes).support.card ≤ 15 := by
  have grown : (record + Finsupp.single candidate votes).support ⊆
      insert candidate record.support := by
    refine Finsupp.support_add.trans ?_
    rw [Finset.insert_eq, Finset.union_comm]
    exact Finset.union_subset_union_left Finsupp.support_single_subset
  refine (Finset.card_le_card grown).trans ?_
  rcases room with below | used
  · have := Finset.card_insert_le candidate record.support
    omega
  · rwa [Finset.insert_eq_of_mem (Finsupp.mem_support_iff.mpr used)]

theorem record_received (l : Ledger) (toAddress a : Address) (f : U64 → U64) :
    ((l.modify toAddress fun b => { b with receivedVote := f b.receivedVote }).ballot a).record =
      (l.ballot a).record := by
  rw [Ledger.modify_ballot]
  split
  · next self => rw [self]
  · rfl

theorem ballot_lowered (info : VoteInfo) (toAddress : Address) (votes : U64) :
    ({ info with
      voteRecord := info.voteRecord.insert toAddress (info.votesFor toAddress - votes) } :
        VoteInfo).ballot =
      { info.ballot with record := info.ballot.record - Finsupp.single toAddress votes } := by
  refine Ballot.ext rfl rfl rfl (Finsupp.ext fun candidate => ?_)
  simp only [VoteInfo.ballot_record, VoteInfo.votesFor, Std.ExtTreeMap.getD_insert,
    Finsupp.sub_apply, Finsupp.single_apply]
  by_cases same : toAddress = candidate
  · simp [same]
  · simp [same]

theorem card_support_sub_single {record : Address →₀ U64} {candidate : Address} (votes : U64)
    (few : record.support.card ≤ 15) (used : record candidate ≠ 0) :
    (record - Finsupp.single candidate votes).support.card ≤ 15 := by
  rw [sub_eq_add_neg, ← Finsupp.single_neg]
  exact card_support_add_single (-votes) few (.inr used)

theorem ballot_withdrawFrom (info : VoteInfo) (candidate : Address) :
    (info.withdrawFrom candidate).ballot = info.ballot.withdrawFrom candidate := by
  refine Ballot.ext rfl rfl rfl (Finsupp.ext fun other => ?_)
  simp only [VoteInfo.ballot_record, VoteInfo.withdrawFrom, VoteInfo.votesFor,
    Std.ExtTreeMap.getD_insert, Ballot.withdrawFrom, Finsupp.erase_apply]
  by_cases same : candidate = other
  · simp [same]
  · simp [same, Ne.symm same]

theorem card_support_withdrawFrom {b : Ballot} (candidate : Address)
    (few : b.record.support.card ≤ 15) :
    (b.withdrawFrom candidate).record.support.card ≤ 15 := by
  simp only [Ballot.withdrawFrom, Finsupp.support_erase]
  exact (Finset.card_le_card (Finset.erase_subset _ _)).trans few

theorem shows_withdrawals (candidate : Address) :
    ∀ (entries : List (Address × VoteInfo)) {s : State} {l : Ledger}, s.Shows l →
      (entries.map (·.1)).Nodup →
      (∀ entry ∈ entries, entry.2.address = entry.1 ∧ entry.2.ballot = l.ballot entry.1) →
      (entries.foldl (fun s entry => VoteInfo.save s (entry.2.withdrawFrom candidate)) s).Shows
        { l with ballot := fun b =>
          if b ∈ entries.map (·.1) then (l.ballot b).withdrawFrom candidate else l.ballot b } := by
  -- No account is visited twice, so the record read before the loop is still the stored one.
  intro entries
  induction entries with
  | nil => intro s l shows _ _; simpa using shows
  | cons entry rest ih =>
    intro s l shows distinct agree
    obtain ⟨own, numbers⟩ := agree entry List.mem_cons_self
    rw [List.map_cons, List.nodup_cons] at distinct
    have saved := shows.save (entry.2.withdrawFrom candidate) (·.withdrawFrom candidate) own
      (by rw [ballot_withdrawFrom, numbers])
      (card_support_withdrawFrom candidate (shows.few entry.1))
    have others : ∀ e ∈ rest, e.2.address = e.1 ∧
        e.2.ballot = (l.modify entry.1 (·.withdrawFrom candidate)).ballot e.1 := by
      intro e member
      obtain ⟨there, read⟩ := agree e (List.mem_cons_of_mem _ member)
      have apart : e.1 ≠ entry.1 := by
        intro same
        exact distinct.1 (same ▸ List.mem_map_of_mem member)
      rw [Ledger.modify_ballot, if_neg apart]
      exact ⟨there, read⟩
    have walked := ih saved distinct.2 others
    have same : (fun b => if b ∈ (entry :: rest).map (·.1)
          then (l.ballot b).withdrawFrom candidate else l.ballot b) =
        fun b => if b ∈ rest.map (·.1)
          then ((l.modify entry.1 (·.withdrawFrom candidate)).ballot b).withdrawFrom candidate
          else (l.modify entry.1 (·.withdrawFrom candidate)).ballot b := by
      funext b
      by_cases self : b = entry.1
      · subst self
        simp [distinct.1]
      · simp only [List.map_cons, List.mem_cons, self, false_or, Ledger.modify_ballot, if_false]
    rw [same]
    exact walked

variable (shows : s.Shows l)

include shows

theorem shows_candidateRegister (name : Text 40) (url : Text 120) (a : Address) :
    (candidateRegister name url a s).1.Shows (l.step (.candidateRegister name url a)) := by
  simp only [candidateRegister, Ledger.step]
  generalize found : VoteInfo.load s a = sender
  obtain ⟨own, numbers, -⟩ := shows.loaded found
  split
  · next already =>
    -- A candidate's ballot already says so, and the ledger stays as it is.
    have same : l.modify a (fun b => { b with isCandidate := true }) = l := by
      have flag : (l.ballot a).isCandidate = true := by rw [← numbers]; exact already
      ext1
      · rfl
      · funext b
        by_cases self : b = a
        · subst self
          simp [← flag]
        · simp [self]
    rw [same]
    exact shows
  · exact shows.save _ _ own (by rw [← numbers]; rfl) (shows.few a)

/-- A mortgage never fails, and moves the price of the votes it adds out of the balance. -/
theorem shows_mortgage (money : U64) (a : Address) :
    ∃ t done, mortgage money a s = .ok (t, done) ∧ t.Shows (l.step (.mortgage money a)) := by
  simp only [mortgage, Ledger.step, ← shows.balance a]
  split
  · next covered =>
    generalize found : VoteInfo.load s a = sender
    obtain ⟨own, numbers, -⟩ := shows.loaded found
    -- What is debited is the money rounded down to whole votes.
    have rounded : (money / votesPreEth * votesPreEth).setWidth 256 ≤ s.balance a := by
      rw [BitVec.le_def] at covered ⊢
      rw [toNat_roundedDown]
      exact (roundedDown_le money votesPreEth).trans covered
    obtain ⟨paid, debit, balances, storages⟩ := s.subBalance_ok a rounded
    have shown := shows.pay (· - (money / votesPreEth * votesPreEth).setWidth 256)
      balances storages
    refine ⟨VoteInfo.save paid { sender with holdVotes := sender.holdVotes + money / votesPreEth },
      true, by rw [debit]; rfl, shown.save _ _ own ?_ (shows.few a)⟩
    rw [Ledger.modifyBalance_ballot, ← numbers]
    rfl
  · exact ⟨s, true, rfl, shows⟩

theorem shows_redeem (votes : U64) (a : Address) :
    (redeem votes a s).1.Shows (l.step (.redeem votes a)) := by
  simp only [redeem, Ledger.step]
  generalize found : VoteInfo.load s a = sender
  obtain ⟨own, numbers, -⟩ := shows.loaded found
  have held : sender.holdVotes = (l.ballot a).holdVotes := by rw [← numbers]; rfl
  by_cases enough : votes ≤ (l.ballot a).holdVotes
  · rw [if_pos (held ▸ enough), if_pos enough]
    have shown := shows.pay (· + (votes * votesPreEth).setWidth 256)
      (s.balance_addBalance a · _) (s.storageMap_addBalance a · _)
    refine shown.save _ _ own ?_ (shows.few a)
    rw [Ledger.modifyBalance_ballot, ← numbers]
    rfl
  · rw [if_neg (held ▸ enough), if_neg enough]
    exact shows

theorem shows_send (toAddress : Address) (votes : U64) (a : Address) :
    (send toAddress votes a s).1.Shows (l.step (.send toAddress votes a)) := by
  simp only [send, Ledger.step]
  by_cases self : toAddress = a
  · simpa [self] using shows
  · generalize found : VoteInfo.load s a = sender
    generalize target : VoteInfo.load s toAddress = receiver
    obtain ⟨own, numbers, -⟩ := shows.loaded found
    obtain ⟨there, credited, -⟩ := shows.loaded target
    have held : sender.holdVotes = (l.ballot a).holdVotes := by rw [← numbers]; rfl
    simp only [self, held, ne_eq, not_false_eq_true, true_and, if_false]
    by_cases short : (l.ballot a).holdVotes < votes
    · rw [if_pos short, if_neg (BitVec.not_le.mpr short)]
      exact shows
    · rw [if_neg short, if_pos (BitVec.not_lt.mp short)]
      have debited := shows.save { sender with holdVotes := sender.holdVotes - votes }
        (fun b => { b with holdVotes := b.holdVotes - votes }) own
        (by rw [← numbers]; rfl) (shows.few a)
      rw [held] at debited
      refine debited.save _ _ there ?_ ?_
      · rw [Ledger.modify_ballot, if_neg self, ← credited]
        rfl
      · simpa [self] using shows.few toAddress

theorem changeReceived_of_not_candidate {a toAddress : Address} (change : U64 → U64)
    (refused : (l.ballot toAddress).isCandidate = false) :
    changeReceived toAddress change (VoteInfo.load s a) s = none := by
  have flag : (VoteInfo.load s toAddress).isCandidate = false := by
    rw [← shows.ballot toAddress] at refused
    exact refused
  unfold changeReceived
  split
  · next self =>
    change toAddress = a at self
    subst self
    simp [flag]
  · simp [flag]

/-- Once the votes received are changed, saving the sender completes a step of both accounts. -/
theorem changeReceived_of_candidate {a toAddress : Address} (change : U64 → U64)
    (candidate : (l.ballot toAddress).isCandidate = true) :
    ∃ sender t, changeReceived toAddress change (VoteInfo.load s a) s = some (sender, t) ∧
      let credited := l.modify toAddress fun b => { b with receivedVote := change b.receivedVote }
      sender.address = a ∧ sender.ballot = credited.ballot a ∧
      ∀ (info : VoteInfo) (next : Ballot → Ballot), info.address = a →
        info.ballot = next (credited.ballot a) →
        (next (credited.ballot a)).record.support.card ≤ 15 →
        (VoteInfo.save t info).Shows (credited.modify a next) := by
  have flag : (VoteInfo.load s toAddress).isCandidate = true := by
    rw [← shows.ballot toAddress] at candidate
    exact candidate
  by_cases self : toAddress = a
  · -- The sender's own record is changed in memory and saved only with the sender.
    subst self
    generalize found : VoteInfo.load s toAddress = sender at flag
    obtain ⟨own, numbers, -⟩ := shows.loaded found
    refine ⟨{ sender with receivedVote := change sender.receivedVote }, s, ?_, own, ?_, ?_⟩
    · simp [changeReceived, own, flag]
    · rw [Ledger.modify_ballot, if_pos rfl, ← numbers]
      rfl
    · intro info next address made few
      have twice : (l.modify toAddress fun b =>
          { b with receivedVote := change b.receivedVote }).modify toAddress next =
          l.modify toAddress fun b => next { b with receivedVote := change b.receivedVote } := by
        simp [Ledger.modify]
      rw [Ledger.modify_ballot, if_pos rfl] at made few
      rw [twice]
      exact shows.save _ _ address made few
  · generalize found : VoteInfo.load s a = sender
    generalize target : VoteInfo.load s toAddress = receiver at flag
    obtain ⟨own, numbers, -⟩ := shows.loaded found
    obtain ⟨there, received, -⟩ := shows.loaded target
    have credited := shows.save { receiver with receivedVote := change receiver.receivedVote }
      (fun b => { b with receivedVote := change b.receivedVote }) there
      (by rw [← received]; rfl) (shows.few toAddress)
    refine ⟨sender, VoteInfo.save s { receiver with receivedVote := change receiver.receivedVote },
      ?_, own, ?_, ?_⟩
    · simp [changeReceived, own, self, target, flag]
    · rw [Ledger.modify_ballot, if_neg (Ne.symm self), numbers]
    · intro info next address made few
      exact credited.save _ _ address made few

theorem shows_vote (toAddress : Address) (votes : U64) (a : Address) :
    (vote toAddress votes a s).1.Shows (l.step (.vote toAddress votes a)) := by
  obtain ⟨-, numbers, tidy⟩ := shows.loaded (a := a) rfl
  have held : (VoteInfo.load s a).holdVotes = (l.ballot a).holdVotes := by rw [← numbers]; rfl
  have full : (15 ≤ (VoteInfo.load s a).voteRecord.size ∧
      toAddress ∉ (VoteInfo.load s a).voteRecord) ↔
      ¬ ((l.ballot a).record.support.card < 15 ∨ (l.ballot a).record toAddress ≠ 0) := by
    rw [VoteInfo.size_voteRecord tidy.nonzero, VoteInfo.mem_voteRecord_iff tidy.nonzero, numbers]
    rw [not_or, Nat.not_lt]
  simp only [vote, Ledger.step, held, full]
  by_cases short : (l.ballot a).holdVotes < votes
  · rw [if_pos short, if_neg (fun can : l.CanVote _ _ _ => BitVec.not_le.mpr short can.1)]
    exact shows
  rw [if_neg short]
  by_cases room : (l.ballot a).record.support.card < 15 ∨ (l.ballot a).record toAddress ≠ 0
  · rw [if_neg (not_not.mpr room)]
    by_cases candidate : (l.ballot toAddress).isCandidate = true
    · rw [if_pos (show l.CanVote _ _ _ from ⟨BitVec.not_lt.mp short, candidate, room⟩)]
      obtain ⟨sender, t, changed, own, ballot, save⟩ :=
        changeReceived_of_candidate shows (a := a) (· + votes) candidate
      rw [changed]
      refine save _ _ own ?_ ?_
      · rw [ballot_recordVoteTo, ← ballot]
        rfl
      · rw [record_received l toAddress a (· + votes)]
        exact card_support_add_single votes (shows.few a) room
    · rw [if_neg (fun can : l.CanVote _ _ _ => candidate can.2.1),
        changeReceived_of_not_candidate shows _ (Bool.eq_false_iff.mpr candidate)]
      exact shows
  · rw [if_pos room, if_neg (fun can : l.CanVote _ _ _ => room can.2.2)]
    exact shows

theorem shows_removeVote (toAddress : Address) (votes : U64) (a : Address) :
    (removeVote toAddress votes a s).1.Shows (l.step (.removeVote toAddress votes a)) := by
  obtain ⟨-, numbers, tidy⟩ := shows.loaded (a := a) rfl
  have entry : (VoteInfo.load s a).votesFor toAddress = (l.ballot a).record toAddress := by
    rw [← numbers]
    rfl
  have member := VoteInfo.mem_voteRecord_iff tidy.nonzero toAddress
  rw [numbers] at member
  simp only [removeVote, Ledger.step, entry, member, not_not]
  by_cases used : (l.ballot a).record toAddress = 0
  · rw [if_pos used, if_neg (fun can : l.CanRemoveVote _ _ _ => can.1 used)]
    exact shows
  rw [if_neg used]
  by_cases short : (l.ballot a).record toAddress < votes
  · rw [if_pos short,
      if_neg (fun can : l.CanRemoveVote _ _ _ => BitVec.not_le.mpr short can.2.1)]
    exact shows
  rw [if_neg short]
  by_cases candidate : (l.ballot toAddress).isCandidate = true
  · rw [if_pos (show l.CanRemoveVote _ _ _ from ⟨used, BitVec.not_lt.mp short, candidate⟩)]
    obtain ⟨sender, t, changed, own, ballot, save⟩ :=
      changeReceived_of_candidate shows (a := a) (· - votes) candidate
    rw [changed]
    refine save _ _ own ?_ ?_
    · rw [← ballot]
      exact congrArg (fun b : Ballot => { b with holdVotes := sender.holdVotes + votes })
        (ballot_lowered sender toAddress votes)
    · rw [record_received l toAddress a (· - votes)]
      exact card_support_sub_single votes (shows.few a) used
  · rw [if_neg (fun can : l.CanRemoveVote _ _ _ => candidate can.2.2),
      changeReceived_of_not_candidate shows _ (Bool.eq_false_iff.mpr candidate)]
    exact shows

theorem shows_candidateDeregister (a : Address) :
    (candidateDeregister a s).1.Shows (l.step (.candidateDeregister a)) := by
  have flag : (VoteInfo.load s a).isCandidate = (l.ballot a).isCandidate := by
    rw [← shows.ballot a]
    rfl
  simp only [candidateDeregister, Ledger.step, flag, Bool.not_eq_true']
  by_cases candidate : (l.ballot a).isCandidate = true
  · rw [if_neg (by simp [candidate]), if_pos candidate]
    -- The map lists each account with stored numbers once, under the record it loads.
    have distinct : ((VoteInfo.getVoteInfoMap s).toList.map (·.1)).Nodup := by
      rw [Std.ExtTreeMap.map_fst_toList_eq_keys]
      exact Std.ExtTreeMap.distinct_keys.imp fun different same => different (by simp [same])
    have agree : ∀ entry ∈ (VoteInfo.getVoteInfoMap s).toList,
        entry.2.address = entry.1 ∧ entry.2.ballot = l.ballot entry.1 := by
      rintro ⟨b, info⟩ member
      have found := Std.ExtTreeMap.mem_toList_iff_getElem?_eq_some.mp member
      rw [VoteInfo.getElem?_getVoteInfoMap] at found
      split at found
      · cases found
      · cases found
        exact ⟨rfl, shows.ballot b⟩
    have walked := shows_withdrawals a _ shows distinct agree
    -- An account that is not listed has no votes to take back.
    have everyone : (fun b => if b ∈ (VoteInfo.getVoteInfoMap s).toList.map (·.1)
        then (l.ballot b).withdrawFrom a else l.ballot b) =
        fun b => (l.ballot b).withdrawFrom a := by
      funext b
      split
      · rfl
      · next absent =>
        rw [Std.ExtTreeMap.map_fst_toList_eq_keys, Std.ExtTreeMap.mem_keys,
          Std.ExtTreeMap.mem_iff_isSome_getElem?, VoteInfo.getElem?_getVoteInfoMap] at absent
        have page : s.storage voteInfoAddress (UserStorage.addressToU256 b 0) = 0 := by
          by_contra used
          rw [if_neg used] at absent
          exact absent rfl
        have record : (l.ballot b).record = 0 := by
          rw [← shows.ballot b]
          ext1 other
          simp [VoteInfo.votesFor, (VoteInfo.load_of_page_zero s b page).2.2.2]
        exact Ballot.ext rfl rfl (by simp [Ballot.withdrawFrom, record])
          (by simp [Ballot.withdrawFrom, record])
    rw [everyone] at walked
    rw [Std.ExtTreeMap.foldl_eq_foldl_toList]
    generalize again : VoteInfo.load _ a = sender
    obtain ⟨own, numbers, -⟩ := walked.loaded again
    exact walked.save _ _ own (by rw [← numbers]; rfl) (walked.few a)
  · rw [if_pos (by simp [candidate]), if_neg candidate]
    exact shows

end VoteManager

theorem VoteOp.shows_run {s : State} {l : Ledger} (shows : s.Shows l) (op : VoteOp) :
    ∃ t, op.run s = .ok t ∧ t.Shows (l.step op) := by
  cases op with
  | mortgage money a =>
    obtain ⟨t, done, ran, shown⟩ := VoteManager.shows_mortgage shows money a
    exact ⟨t, by rw [run, ran]; rfl, shown⟩
  | redeem votes a => exact ⟨_, rfl, VoteManager.shows_redeem shows votes a⟩
  | candidateRegister name url a =>
    exact ⟨_, rfl, VoteManager.shows_candidateRegister shows name url a⟩
  | candidateDeregister a => exact ⟨_, rfl, VoteManager.shows_candidateDeregister shows a⟩
  | vote toAddress votes a => exact ⟨_, rfl, VoteManager.shows_vote shows toAddress votes a⟩
  | removeVote toAddress votes a =>
    exact ⟨_, rfl, VoteManager.shows_removeVote shows toAddress votes a⟩
  | send toAddress votes a => exact ⟨_, rfl, VoteManager.shows_send shows toAddress votes a⟩

/-- The ledger after a run of vote operations. -/
noncomputable def Ledger.run (l : Ledger) (ops : List VoteOp) : Ledger := ops.foldl Ledger.step l

theorem shows_runVoteOps {s : State} {l : Ledger} (shows : s.Shows l) (ops : List VoteOp) :
    ∃ t, runVoteOps s ops = .ok t ∧ t.Shows (l.run ops) := by
  induction ops generalizing s l with
  | nil => exact ⟨s, rfl, shows⟩
  | cons op rest ih =>
    obtain ⟨middle, first, shown⟩ := op.shows_run shows
    obtain ⟨t, after, shownAfter⟩ := ih shown
    refine ⟨t, ?_, shownAfter⟩
    simp only [runVoteOps, List.foldlM_cons, first] at after ⊢
    exact after

theorem EmptyVoteStorage.shows {s : State} (empty : EmptyVoteStorage s) :
    s.Shows ⟨s.balance, fun _ => .blank⟩ := by
  have page : ∀ a, s.storage voteInfoAddress (UserStorage.addressToU256 a 0) = 0 := by
    intro a
    simp only [EmptyVoteStorage] at empty
    simp [State.storage, Storage.read, empty]
  refine ⟨fun _ => rfl, fun a => ?_, fun a => ?_⟩
  · obtain ⟨flag, hold, received, record⟩ := VoteInfo.load_of_page_zero s a (page a)
    refine Ballot.ext flag received hold (Finsupp.ext fun candidate => ?_)
    simp [Ballot.blank, VoteInfo.votesFor, record]
  · have record := (VoteInfo.load_of_page_zero s a (page a)).2.2.2
    exact ⟨by simp [record], by simp [record]⟩

/-- From empty vote storage, every run of vote operations ends, and leaves in the balances and in
the stored pages what the ledger says. -/
theorem runVoteOps_refines_ledger {s : State} (empty : EmptyVoteStorage s) (ops : List VoteOp) :
    ∃ t, runVoteOps s ops = .ok t ∧ t.Shows (Ledger.run ⟨s.balance, fun _ => .blank⟩ ops) :=
  shows_runVoteOps empty.shows ops

/-- An account buys a vote and sends it away. -/
theorem runVoteOps_refines_ledger_funded :
    let s := State.funded 5 20000000000000000
    let ops := [.mortgage 10000000000000000 5, .send 6 1 5]
    ∃ t, runVoteOps s ops = .ok t ∧ t.Shows (Ledger.run ⟨s.balance, fun _ => .blank⟩ ops) :=
  runVoteOps_refines_ledger (State.emptyVoteStorage_funded 5 _) _

end Etiam
