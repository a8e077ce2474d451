import Etiam.Vote.VoteInfo

/-! The vote operations that the precompiled contracts run on the world state. -/

namespace Etiam

/-- The price of one vote in wei. -/
def votesPreEth : U64 := 10000000000000000

namespace VoteInfo

/-- Add votes to the entry of a candidate, making the entry where there is none. -/
def recordVoteTo (info : VoteInfo) (toAddress : Address) (num : U64) : VoteInfo :=
  { info with voteRecord := info.voteRecord.insert toAddress (info.votesFor toAddress + num) }

/-- Take the votes recorded for a candidate back into the votes held. -/
def withdrawFrom (info : VoteInfo) (candidate : Address) : VoteInfo :=
  { info with
    holdVotes := info.holdVotes + info.votesFor candidate
    voteRecord := info.voteRecord.insert candidate 0 }

end VoteInfo

namespace VoteManager

/-- Make an account a candidate under a name and a url, unless it is one already. -/
def candidateRegister (name : Text 40) (url : Text 120) (a : Address) (s : State) : State × Bool :=
  let sender := VoteInfo.load s a
  if sender.isCandidate then (s, false)
  else (VoteInfo.save s { sender with name, url, isCandidate := true }, true)

/-- Withdraw every account's votes for a candidate, then take the candidate off the list. -/
def candidateDeregister (a : Address) (s : State) : State × Bool :=
  let sender := VoteInfo.load s a
  if !sender.isCandidate then (s, false)
  else
    let infoMap := VoteInfo.getVoteInfoMap s
    let s := infoMap.foldl (fun s _ info => VoteInfo.save s (info.withdrawFrom a)) s
    -- The loop may have changed the candidate's own record through a vote for itself.
    let sender := VoteInfo.load s a
    (VoteInfo.save s
      { sender with isCandidate := false, receivedVote := 0, name := .empty, url := .empty }, true)

/-- Buy votes for as much of the money as buys whole votes. -/
def mortgage (money : U64) (a : Address) (s : State) : Except TransactionError (State × Bool) := do
  if money.setWidth 256 ≤ s.balance a then
    let sender := VoteInfo.load s a
    let voteNumber := money / votesPreEth
    let validMoney := voteNumber * votesPreEth
    let s ← s.subBalance a (validMoney.setWidth 256)
    return (VoteInfo.save s { sender with holdVotes := sender.holdVotes + voteNumber }, true)
  else return (s, true)

/-- Sell votes that are held. -/
def redeem (votes : U64) (a : Address) (s : State) : State × Bool :=
  let sender := VoteInfo.load s a
  if votes ≤ sender.holdVotes then
    -- The price is a product of two 64-bit integers before it becomes an amount of wei.
    let s := s.addBalance a ((votes * votesPreEth).setWidth 256)
    (VoteInfo.save s { sender with holdVotes := sender.holdVotes - votes }, true)
  else (s, true)

/-- Give votes that are held to another account. -/
def send (toAddress : Address) (votes : U64) (a : Address) (s : State) : State × Bool :=
  if toAddress = a then (s, true)
  else
    let sender := VoteInfo.load s a
    if sender.holdVotes < votes then (s, false)
    else
      let receiver := VoteInfo.load s toAddress
      let s := VoteInfo.save s { sender with holdVotes := sender.holdVotes - votes }
      (VoteInfo.save s { receiver with holdVotes := receiver.holdVotes + votes }, true)

/-- Change the votes received by a candidate, which may be the sender of the votes itself. -/
def changeReceived (toAddress : Address) (change : U64 → U64) (sender : VoteInfo) (s : State) :
    Option (VoteInfo × State) :=
  if toAddress = sender.address then
    if !sender.isCandidate then none
    else some ({ sender with receivedVote := change sender.receivedVote }, s)
  else
    let candidate := VoteInfo.load s toAddress
    if !candidate.isCandidate then none
    else some (sender, VoteInfo.save s
      { candidate with receivedVote := change candidate.receivedVote })

/-- Vote for a candidate with votes that are held. -/
def vote (toAddress : Address) (votes : U64) (a : Address) (s : State) : State × Bool :=
  let sender := VoteInfo.load s a
  if sender.holdVotes < votes then (s, false)
  else if 15 ≤ sender.voteRecord.size ∧ toAddress ∉ sender.voteRecord then (s, false)
  else match changeReceived toAddress (· + votes) sender s with
    | none => (s, false)
    | some (sender, s) =>
      let sender := { sender with holdVotes := sender.holdVotes - votes }
      (VoteInfo.save s (sender.recordVoteTo toAddress votes), true)

/-- Take back votes that were given to a candidate. -/
def removeVote (toAddress : Address) (votes : U64) (a : Address) (s : State) : State × Bool :=
  let sender := VoteInfo.load s a
  if toAddress ∉ sender.voteRecord then (s, false)
  else if sender.votesFor toAddress < votes then (s, false)
  else match changeReceived toAddress (· - votes) sender s with
    | none => (s, false)
    | some (sender, s) =>
      let record := sender.voteRecord.insert toAddress (sender.votesFor toAddress - votes)
      (VoteInfo.save s
        { sender with holdVotes := sender.holdVotes + votes, voteRecord := record }, true)

end VoteManager

/-- One vote operation with the account that asks for it. -/
inductive VoteOp where
  | mortgage (money : U64) (sender : Address)
  | redeem (votes : U64) (sender : Address)
  | candidateRegister (name : Text 40) (url : Text 120) (sender : Address)
  | candidateDeregister (sender : Address)
  | vote (toAddress : Address) (votes : U64) (sender : Address)
  | removeVote (toAddress : Address) (votes : U64) (sender : Address)
  | send (toAddress : Address) (votes : U64) (sender : Address)

/-- Run one vote operation, keeping the state it leaves. -/
def VoteOp.run (s : State) : VoteOp → Except TransactionError State
  | .mortgage money a => (·.1) <$> VoteManager.mortgage money a s
  | .redeem votes a => .ok (VoteManager.redeem votes a s).1
  | .candidateRegister name url a => .ok (VoteManager.candidateRegister name url a s).1
  | .candidateDeregister a => .ok (VoteManager.candidateDeregister a s).1
  | .vote toAddress votes a => .ok (VoteManager.vote toAddress votes a s).1
  | .removeVote toAddress votes a => .ok (VoteManager.removeVote toAddress votes a s).1
  | .send toAddress votes a => .ok (VoteManager.send toAddress votes a s).1

/-- Run vote operations one after another. -/
def runVoteOps (s : State) (ops : List VoteOp) : Except TransactionError State :=
  ops.foldlM VoteOp.run s

/-- The vote table after vote operations, empty where one of them is abandoned. -/
def votesAfter (s : State) (ops : List VoteOp) : Std.ExtTreeMap Address VoteInfo :=
  match runVoteOps s ops with
  | .ok s => VoteInfo.getVoteInfoMap s
  | .error _ => ∅

/-- No vote record has been stored yet. -/
def EmptyVoteStorage (s : State) : Prop := (s.storageMap voteInfoAddress).words = ∅

/-- A state with one account, which has nothing but wei. -/
def State.funded (a : Address) (wei : U256) : State where
  accounts := (∅ : Std.ExtTreeMap Address Account).insert a (Account.fresh 0 wei)
  accountStartNonce := 0

theorem State.emptyVoteStorage_funded (a : Address) (wei : U256) :
    EmptyVoteStorage (State.funded a wei) := by
  have blank : (State.funded a wei).storageMap voteInfoAddress = .empty := by
    simp only [State.storageMap, State.account, State.funded, Std.ExtTreeMap.getElem?_insert]
    by_cases same : compare a voteInfoAddress = .eq
    · simp [same, Account.fresh]
    · simp [same]
  rw [EmptyVoteStorage, blank]
  rfl

end Etiam
