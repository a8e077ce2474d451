import Etiam.Producer.Pvomi
import Etiam.Vote.Manager

/-! When following the vote table raises an exception, and a registration that makes it do so. -/

namespace Etiam

namespace Controller

/-- The accounts of a vote table that can be followed without an exception. -/
structure Calm (c : Controller) (votes : Std.ExtTreeMap Address VoteInfo) : Prop where
  /-- A candidate is seen first outside the race and at race time zero. -/
  first : ∀ a info, votes[a]? = some info → info.isCandidate = true → c.allVotes[a]? = none →
    c.db.producerVotes.find a = none ∧ c.raceTime = 0
  /-- A candidate whose votes changed is in the race, and finishes within race time. -/
  changed : ∀ a info known, votes[a]? = some info → info.isCandidate = true →
    c.allVotes[a]? = some known → info.receivedVote ≠ known →
    ∃ race, c.db.producerVotes.find a = some race ∧
      c.raceTime.toNat + (Race.timeToFinish (race.speed + (info.receivedVote - known))
        (race.positionAt c.raceTime)).toNat < 2 ^ 128
  /-- An account that left the table is in the race. -/
  left : ∀ a, a ∈ c.allVotes → a ∉ votes → ∃ race, c.db.producerVotes.find a = some race

theorem startNewRaceLap_start_iff (now : UInt128) :
    (∃ lap, Race.startNewRaceLap now .start = .ok lap) ↔ now = 0 := by
  -- A producer that stands still finishes at the end of race time, which leaves no room.
  rw [Race.startNewRaceLap, Race.update_isOk_iff, Race.timeToFinish_of_not_pos (by decide)]
  have most : maxUInt128.toNat = 2 ^ 128 - 1 := by decide
  rw [most]
  constructor
  · intro fits
    have zero : now.toNat = 0 := by omega
    exact BitVec.eq_of_toNat_eq (by simpa using zero)
  · rintro rfl
    simp

theorem updateVotes_isOk_iff (delta : ShareType) (now : UInt128) (race : Race) :
    (∃ moved, Race.updateVotes delta now race = .ok moved) ↔
      now.toNat + (Race.timeToFinish (race.speed + delta) (race.positionAt now)).toNat < 2 ^ 128 :=
  Race.update_isOk_iff _ _ _

theorem exists_map_eq_ok {ε α β : Type} (x : Except ε α) (f : α → β) :
    (∃ b, x.map f = .ok b) ↔ ∃ a, x = .ok a := by
  cases x with
  | ok a => simp [Except.map]
  | error e => simp [Except.map]

/-- A listed account can be followed exactly under the conditions on candidates. -/
theorem followAccount_isOk_iff (now : UInt128) (info : VoteInfo) (votes : Option U64)
    (place : Option Race) :
    (∃ after, followAccount now info (votes, place) = .ok after) ↔
      (info.isCandidate = true →
        (votes = none → place = none ∧ now = 0) ∧
        ∀ known, votes = some known → info.receivedVote ≠ known →
          ∃ race, place = some race ∧
            now.toNat + (Race.timeToFinish (race.speed + (info.receivedVote - known))
              (race.positionAt now)).toNat < 2 ^ 128) := by
  unfold followAccount
  cases stands : info.isCandidate with
  | false => simp
  | true =>
    simp only [Bool.true_eq_false, if_false, forall_const]
    -- The four cases are whether votes are remembered and whether there is a place in the race.
    rcases votes with _ | known <;> rcases place with _ | race
    · simp only [exists_map_eq_ok, startNewRaceLap_start_iff]
      simp
    · -- A place in the race is taken, so the account cannot be put there again.
      cases started : Race.startNewRaceLap now .start with
      | error e => simp [Except.bind]
      | ok lap => simp [Except.bind]
    · by_cases same : info.receivedVote = known
      · simp [same]
      · have differs : info.receivedVote - known ≠ 0 := sub_ne_zero.mpr same
        dsimp only
        rw [if_neg differs]
        simp [same]
    · by_cases same : info.receivedVote = known
      · simp [same]
      · have differs : info.receivedVote - known ≠ 0 := sub_ne_zero.mpr same
        dsimp only
        rw [if_neg differs, exists_map_eq_ok, updateVotes_isOk_iff]
        simp [same]

/-- Following a vote table returns exactly when the table is calm. -/
theorem updatePvomiPerblock_returned_iff (c : Controller)
    (votes : Std.ExtTreeMap Address VoteInfo) :
    Exec.Returned ((updatePvomiPerblock votes).run c) ↔ c.Calm votes := by
  rw [(updatePvomiPerblock_run c votes).1]
  constructor
  · intro all
    have listed : ∀ a info, votes[a]? = some info →
        ∃ after, followAccount c.raceTime info (c.tracked a) = .ok after := by
      intro a info present
      have outcome := all a
      rwa [pvomiOutcome, present] at outcome
    refine ⟨fun a info present candidate unknown => ?_,
      fun a info known present candidate remembered => ?_, fun a remembered absent => ?_⟩
    · exact (((followAccount_isOk_iff _ _ _ _).mp (listed a info present)) candidate).1 unknown
    · exact (((followAccount_isOk_iff _ _ _ _).mp (listed a info present)) candidate).2 known
        remembered
    · have outcome := all a
      rw [pvomiOutcome, Std.ExtTreeMap.getElem?_eq_none absent] at outcome
      obtain ⟨known, remembers⟩ := Option.isSome_iff_exists.mp
        (Std.ExtTreeMap.mem_iff_isSome_getElem?.mp remembered)
      cases place : c.db.producerVotes.find a with
      | none => simp [tracked, remembers, place, dropAccount] at outcome
      | some race => exact ⟨race, rfl⟩
  · intro calm a
    rw [pvomiOutcome]
    cases present : votes[a]? with
    | some info =>
      refine (followAccount_isOk_iff _ _ _ _).mpr fun candidate => ⟨fun unknown => ?_, ?_⟩
      · exact calm.first a info present candidate unknown
      · intro known remembers
        exact calm.changed a info known present candidate remembers
    | none =>
      cases remembers : c.allVotes[a]? with
      | none => exact ⟨_, by rw [tracked, remembers]; rfl⟩
      | some known =>
        obtain ⟨race, place⟩ := calm.left a
          (Std.ExtTreeMap.mem_iff_isSome_getElem?.mpr (by simp [remembers]))
          (fun listed => by simp [Std.ExtTreeMap.mem_iff_isSome_getElem?, present] at listed)
        exact ⟨_, by rw [tracked, remembers, place]; rfl⟩

/-- A state in which one account can buy votes. -/
def voters : State := State.funded 50 10000000000000000000

/-- Seventeen accounts stand for election, and two accounts get votes to give. -/
def nominations : List VoteOp :=
  ((List.range 17).map fun i =>
    VoteOp.candidateRegister shortName shortUrl (BitVec.ofNat 160 (i + 1))) ++
    [.mortgage 500000000000000000 50, .send 51 5 50]

/-- Sixteen of them get three votes each and the last one two. -/
def election : List VoteOp :=
  ((List.range 15).map fun i => VoteOp.vote (BitVec.ofNat 160 (i + 1)) 3 50) ++
    [.vote 16 3 51, .vote 17 2 51]

/-- The vote table that the children of each block of the first round see. -/
def electionTable : ℕ → Std.ExtTreeMap Address VoteInfo
  | 0 => votesAfter voters []
  | 1 => votesAfter voters nominations
  | _ => votesAfter voters (nominations ++ election)

/-- The blocks of the first round, all by the only producer, whose turn comes every sixty-three
seconds. -/
def electionRound : List Applied :=
  (List.range 21).map fun i =>
    .signed 100 (i + 1) (1513580324 + 63 * (i + 1) - if i = 0 then 0 else 3) (electionTable i)

/-- Once the race has moved, one more candidate makes every further block inapplicable. -/
theorem registration_stops_chain : ∃ s c,
    runVoteOps voters
      (nominations ++ election ++ [.candidateRegister shortName shortUrl 18]) = .ok s ∧
    replay [100] electionRound = some c ∧
    ¬ Exec.Returned ((updatePvomiPerblock (VoteInfo.getVoteInfoMap s)).run c) := by
  -- At the end of the round the race time moves to the finish of the seventeenth candidate.
  have evaluated : (match runVoteOps voters
        (nominations ++ election ++ [.candidateRegister shortName shortUrl 18]) with
      | .error _ => false
      | .ok s => (replay [100] electionRound).any fun c =>
          match (updatePvomiPerblock (VoteInfo.getVoteInfoMap s)).run c with
          | .error e _ => e = Failure.overflowError
          | .ok _ _ => false) = true := by decide +kernel
  split at evaluated
  · cases evaluated
  · next s operated =>
    obtain ⟨c, replayed, failed⟩ := (Option.any_eq_true _ _).mp evaluated
    refine ⟨s, c, operated, replayed, ?_⟩
    split at failed
    · next ended => rw [ended]; exact Exec.not_returned_error _ _
    · cases failed

end Controller

end Etiam
