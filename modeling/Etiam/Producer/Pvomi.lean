import Etiam.Producer.Controller

/-! Following the vote table of the parent's state, account by account. -/

namespace Etiam

namespace Controller

open Database

/-- What the controller keeps of one account: the votes it remembers and its place in the race. -/
def tracked (c : Controller) (a : Address) : Option U64 × Option Race :=
  (c.allVotes[a]?, c.db.producerVotes.find a)

/-- The race time of the controller's database. -/
def raceTime (c : Controller) : UInt128 := c.db.currentRaceTime.value

/-- What following the vote table does to what is kept of a listed account. -/
def followAccount (now : UInt128) (info : VoteInfo) (kept : Option U64 × Option Race) :
    Except Failure (Option U64 × Option Race) :=
  if info.isCandidate = false then .ok kept
  else
    match kept with
    | (some votes, some race) =>
      if info.receivedVote - votes = 0 then .ok kept
      else (Race.updateVotes (info.receivedVote - votes) now race).map
        fun race => (some info.receivedVote, some race)
    | (some votes, none) =>
      if info.receivedVote - votes = 0 then .ok kept else .error .outOfRange
    | (none, none) =>
      (Race.startNewRaceLap now .start).map fun lap => (some info.receivedVote, some lap)
    | (none, some _) => (Race.startNewRaceLap now .start).bind fun _ => .error .logicError

/-- What is kept of a listed account once its votes have been followed. -/
inductive Followed (now : UInt128) (info : VoteInfo) (kept : Option U64 × Option Race) :
    Option U64 × Option Race → Prop
  | passed (idle : info.isCandidate = false) : Followed now info kept kept
  | same (candidate : info.isCandidate = true) (known : kept.1 = some info.receivedVote) :
    Followed now info kept kept
  | entered {lap : Race} (candidate : info.isCandidate = true) (nothing : kept = (none, none))
    (started : Race.startNewRaceLap now .start = .ok lap) :
    Followed now info kept (some info.receivedVote, some lap)
  | moved {votes : U64} {race race' : Race} (candidate : info.isCandidate = true)
    (was : kept = (some votes, some race))
    (moves : Race.updateVotes (info.receivedVote - votes) now race = .ok race') :
    Followed now info kept (some info.receivedVote, some race')

variable {info : VoteInfo} {db : Database} {a : Address} {race : Race} {c : Controller}
  {votes : U64}

theorem followed_of_ok {now : UInt128} {kept after : Option U64 × Option Race}
    (followed : followAccount now info kept = .ok after) : Followed now info kept after := by
  obtain ⟨memory, place⟩ := kept
  unfold followAccount at followed
  cases candidate : info.isCandidate with
  | false =>
    rw [if_pos candidate] at followed
    cases followed
    exact .passed candidate
  | true =>
    rw [if_neg (by simp [candidate])] at followed
    rcases memory with _ | votes
    · -- An account that is not known enters, unless its place is taken.
      cases started : Race.startNewRaceLap now .start with
      | error e => rcases place with _ | race <;> rw [started] at followed <;> cases followed
      | ok lap =>
        rcases place with _ | race <;> rw [started] at followed <;> cases followed
        exact .entered candidate rfl started
    · by_cases equal : info.receivedVote - votes = 0
      · rcases place with _ | race <;> dsimp only at followed <;>
          rw [if_pos equal] at followed <;> cases followed
        all_goals exact .same candidate (congrArg some (sub_eq_zero.mp equal).symm)
      · rcases place with _ | race <;> dsimp only at followed <;> rw [if_neg equal] at followed
        · cases followed
        · cases moves : Race.updateVotes (info.receivedVote - votes) now race with
          | error e =>
            rw [moves] at followed
            cases followed
          | ok race' =>
            rw [moves] at followed
            cases followed
            exact .moved candidate rfl moves

/-- What it does to what is kept of an account that is not listed. -/
def dropAccount : Option U64 × Option Race → Except Failure (Option U64 × Option Race)
  | (none, race) => .ok (none, race)
  | (some _, none) => .error .outOfRange
  | (some _, some _) => .ok (none, none)

/-- One turn of the loop changes what is kept of one account and nothing else of the race. -/
structure Follows (c d : Controller) (a : Address) (after : Option U64 × Option Race) : Prop where
  own : d.tracked a = after
  others : ∀ b, b ≠ a → d.tracked b = c.tracked b
  time : d.raceTime = c.raceTime

theorem enlist_ok {lap : Race}
    (started : Race.startNewRaceLap db.currentRaceTime.value .start = .ok lap)
    (free : db.producerVotes.find a = none) :
    ∃ db', (enlist a).run db = .ok () db' ∧
      db'.currentRaceTime.value = db.currentRaceTime.value ∧
      ∀ b, db'.producerVotes.find b = if a = b then some lap else db.producerVotes.find b := by
  obtain ⟨made, created⟩ := (Index.emplace_eq_some_iff db.producerVotes a lap).mpr free
  have placed : (onVotes
      (Index.create a (Race.startNewRaceLap db.currentRaceTime.value .start))).run
      db = .ok () { db with producerVotes := made } := by
    rw [started]
    exact Exec.zoom_ok (Index.run_create created)
  unfold enlist
  rw [Exec.run_get_bind, Exec.bind_ok placed]
  cases known : db.producers.find a with
  | none =>
    -- The account produces nothing yet, so its producer object is made too.
    obtain ⟨added, creates⟩ := (Index.emplace_eq_some_iff db.producers a {}).mpr known
    exact ⟨_, Exec.zoom_ok (Index.run_create creates), rfl, Index.find_emplace created⟩
  | some producer =>
    by_cases queued : producer.powWorker = 0
    · exact ⟨{ db with producerVotes := made }, by simp [queued], rfl, Index.find_emplace created⟩
    · -- A queued worker leaves the queue.
      simp only [queued, ne_eq, not_false_eq_true, if_true]
      exact ⟨_, Exec.bind_ok (Exec.zoom_ok (Index.run_change known rfl)), rfl,
        Index.find_emplace created⟩

theorem enlist_error {e : Failure}
    (late : Race.startNewRaceLap db.currentRaceTime.value .start = .error e) :
    (enlist a).run db = .error e db := by
  unfold enlist
  rw [Exec.run_get_bind, late]
  exact Exec.bind_error (Exec.zoom_error Index.run_create_error)

theorem enlist_taken {lap : Race}
    (started : Race.startNewRaceLap db.currentRaceTime.value .start = .ok lap)
    (taken : db.producerVotes.find a = some race) :
    (enlist a).run db = .error .logicError db := by
  have refused : db.producerVotes.emplace a lap = none := by
    by_contra made
    obtain ⟨ix, created⟩ := Option.ne_none_iff_exists'.mp made
    have free := (Index.emplace_eq_some_iff db.producerVotes a lap).mp ⟨ix, created⟩
    rw [taken] at free
    cases free
  unfold enlist
  rw [Exec.run_get_bind, started]
  exact Exec.bind_error (Exec.zoom_error (Index.run_create_taken refused))

theorem tracked_remember (c : Controller) (a b : Address) (votes : U64) :
    tracked { c with allVotes := c.allVotes.insert a votes } b =
      if a = b then (some votes, c.db.producerVotes.find b) else c.tracked b := by
  simp only [tracked, Std.ExtTreeMap.getElem?_insert, Std.compare_eq_iff_eq]
  split <;> rfl

theorem followCandidate_known
    (candidate : info.isCandidate = true) (known : c.allVotes[a]? = some votes)
    (different : info.receivedVote - votes ≠ 0) :
    (followCandidate a info).run c =
      (onDb (onVotes (Index.change a
        (Race.updateVotes (info.receivedVote - votes) c.db.currentRaceTime.value))) >>=
        fun _ => remember a info.receivedVote).run c := by
  unfold followCandidate
  rw [if_neg (by simp [candidate]), Exec.run_get_bind, known]
  dsimp only
  rw [if_neg different]

theorem followCandidate_new
    (candidate : info.isCandidate = true) (unknown : c.allVotes[a]? = none) :
    (followCandidate a info).run c =
      (onDb (enlist a) >>= fun _ => remember a info.receivedVote).run c := by
  unfold followCandidate
  rw [if_neg (by simp [candidate]), Exec.run_get_bind, unknown]

theorem followCandidate_idle
    (idle : info.isCandidate = false ∨ ∃ votes, c.allVotes[a]? = some votes ∧
      info.receivedVote - votes = 0) :
    (followCandidate a info).run c = .ok () c := by
  unfold followCandidate
  by_cases candidate : info.isCandidate = true
  · obtain ⟨votes, known, same⟩ := idle.resolve_left (by simp [candidate])
    rw [if_neg (by simp [candidate]), Exec.run_get_bind, known]
    dsimp only
    rw [if_pos same]
    rfl
  · rw [if_pos (by simp [candidate])]
    rfl

theorem Follows.same (c : Controller) (a : Address) : Follows c c a (c.tracked a) :=
  ⟨rfl, fun _ _ => rfl, rfl⟩

/-- A turn ends as is said of its account, by changing what is kept of it or by failing. -/
def EndsAs (c : Controller) (a : Address) (r : EStateM.Result Failure Controller Unit) :
    Except Failure (Option U64 × Option Race) → Prop
  | .ok after => ∃ d, r = .ok () d ∧ Follows c d a after
  | .error e => ∃ d, r = .error e d

theorem endsAs_known (candidate : info.isCandidate = true) (known : c.allVotes[a]? = some votes)
    (different : info.receivedVote - votes ≠ 0) (found : c.db.producerVotes.find a = some race) :
    EndsAs c a ((followCandidate a info).run c)
      ((Race.updateVotes (info.receivedVote - votes) c.raceTime race).map
        fun race => (some info.receivedVote, some race)) := by
  rw [followCandidate_known candidate known different, raceTime]
  cases moved : Race.updateVotes (info.receivedVote - votes) c.db.currentRaceTime.value race with
  | error e =>
    exact ⟨_, Exec.bind_error
      (Exec.zoom_error (Exec.zoom_error (Index.run_change_error found moved)))⟩
  | ok race' =>
    refine ⟨_, Exec.bind_ok (Exec.zoom_ok (Exec.zoom_ok (Index.run_change found moved))),
      ?_, fun b other => ?_, rfl⟩
    · rw [tracked_remember, if_pos rfl]
      simp [Index.find_modify found]
    · rw [tracked_remember, if_neg (Ne.symm other)]
      simp [tracked, Index.find_modify found, Ne.symm other]

theorem endsAs_new (candidate : info.isCandidate = true) (unknown : c.allVotes[a]? = none)
    (free : c.db.producerVotes.find a = none) :
    EndsAs c a ((followCandidate a info).run c) ((Race.startNewRaceLap c.raceTime .start).map
        fun lap => (some info.receivedVote, some lap)) := by
  rw [followCandidate_new candidate unknown, raceTime]
  cases started : Race.startNewRaceLap c.db.currentRaceTime.value .start with
  | error e => exact ⟨_, Exec.bind_error (Exec.zoom_error (enlist_error started))⟩
  | ok lap =>
    obtain ⟨db, ran, time, finds⟩ := enlist_ok started free
    refine ⟨_, Exec.bind_ok (Exec.zoom_ok ran), ?_, fun b other => ?_, time⟩
    · rw [tracked_remember, if_pos rfl]
      simp [finds]
    · rw [tracked_remember, if_neg (Ne.symm other)]
      simp [tracked, finds, Ne.symm other]

theorem endsAs_taken (candidate : info.isCandidate = true) (unknown : c.allVotes[a]? = none)
    (taken : c.db.producerVotes.find a = some race) :
    EndsAs c a ((followCandidate a info).run c)
      ((Race.startNewRaceLap c.raceTime .start).bind fun _ => .error .logicError) := by
  rw [followCandidate_new candidate unknown, raceTime]
  cases started : Race.startNewRaceLap c.db.currentRaceTime.value .start with
  | error e => exact ⟨_, Exec.bind_error (Exec.zoom_error (enlist_error started))⟩
  | ok lap => exact ⟨_, Exec.bind_error (Exec.zoom_error (enlist_taken started taken))⟩

theorem followCandidate_endsAs (a : Address) (info : VoteInfo) (c : Controller) :
    EndsAs c a ((followCandidate a info).run c)
      (followAccount c.raceTime info (c.tracked a)) := by
  unfold followAccount
  split
  · next passed =>
    -- Accounts that do not stand for election are passed over.
    exact ⟨c, followCandidate_idle (.inl passed), Follows.same c a⟩
  · next stands =>
    have candidate : info.isCandidate = true := by simpa using stands
    cases known : c.allVotes[a]? with
    | some votes =>
      by_cases same : info.receivedVote - votes = 0
      · -- The votes are those remembered, so there is nothing to do.
        have idle := followCandidate_idle (a := a) (.inr ⟨votes, known, same⟩)
        cases found : c.db.producerVotes.find a with
        | none =>
          simp only [tracked, known, found, if_pos same]
          exact ⟨c, idle, by simpa [tracked, known, found] using Follows.same c a⟩
        | some race =>
          simp only [tracked, known, found, if_pos same]
          exact ⟨c, idle, by simpa [tracked, known, found] using Follows.same c a⟩
      · cases found : c.db.producerVotes.find a with
        | none =>
          simp only [tracked, known, found, if_neg same]
          rw [followCandidate_known candidate known same]
          exact ⟨_, Exec.bind_error
            (Exec.zoom_error (Exec.zoom_error (Index.run_change_none found)))⟩
        | some race =>
          simp only [tracked, known, found, if_neg same]
          exact endsAs_known candidate known same found
    | none =>
      cases found : c.db.producerVotes.find a with
      | none =>
        simp only [tracked, known, found]
        exact endsAs_new candidate known found
      | some race =>
        simp only [tracked, known, found]
        exact endsAs_taken candidate known found

theorem forget_endsAs (known : c.allVotes[a]? = some votes) :
    EndsAs c a ((forget a).run c) (dropAccount (c.tracked a)) := by
  unfold forget
  cases found : c.db.producerVotes.find a with
  | none =>
    simp only [tracked, known, found, dropAccount]
    exact ⟨_, Exec.bind_error (Exec.zoom_error (Exec.zoom_error (Index.run_delete_none found)))⟩
  | some race =>
    simp only [tracked, known, found, dropAccount]
    refine ⟨_, Exec.bind_ok (Exec.zoom_ok (Exec.zoom_ok (Index.run_delete found))), ?_,
      fun b other => ?_, rfl⟩
    · simp [tracked, Index.find_remove]
    · simp [tracked, Index.find_remove, Std.ExtTreeMap.getElem?_erase, Ne.symm other]

/-- A loop over different accounts returns exactly when every turn can, and does what they do. -/
theorem forM_follows {α : Type} (f : α → EStateM Failure Controller Unit) (key : α → Address)
    (spec : α → UInt128 → Option U64 × Option Race → Except Failure (Option U64 × Option Race))
    (xs : List α) (c : Controller) (distinct : (xs.map key).Nodup)
    (turn : ∀ x ∈ xs, ∀ d : Controller, d.tracked (key x) = c.tracked (key x) →
      EndsAs d (key x) ((f x).run d) (spec x d.raceTime (d.tracked (key x)))) :
    (Exec.Returned ((xs.forM f).run c) ↔
      ∀ x ∈ xs, ∃ after, spec x c.raceTime (c.tracked (key x)) = .ok after) ∧
    ∀ d, (xs.forM f).run c = .ok () d → d.raceTime = c.raceTime ∧
      (∀ x ∈ xs, spec x c.raceTime (c.tracked (key x)) = .ok (d.tracked (key x))) ∧
      ∀ b, b ∉ xs.map key → d.tracked b = c.tracked b := by
  -- No turn changes what is kept of an account whose turn is still to come.
  induction xs generalizing c with
  | nil =>
    refine ⟨by simp, fun d ran => ?_⟩
    cases ran
    simp
  | cons x rest ih =>
    rw [List.map_cons, List.nodup_cons] at distinct
    have first := turn x List.mem_cons_self c rfl
    cases outcome : spec x c.raceTime (c.tracked (key x)) with
    | error e =>
      rw [outcome] at first
      obtain ⟨d, failed⟩ := first
      rw [Exec.forM_cons, Exec.bind_error failed]
      refine ⟨⟨fun returned => absurd returned id, fun all => ?_⟩, fun d ran => nomatch ran⟩
      obtain ⟨after, fine⟩ := all x List.mem_cons_self
      rw [outcome] at fine
      cases fine
    | ok after =>
      rw [outcome] at first
      obtain ⟨m, ran, own, others, time⟩ := first
      have apart : ∀ y ∈ rest, key y ≠ key x := by
        intro y member same
        exact distinct.1 (same ▸ List.mem_map_of_mem member)
      have kept : ∀ y ∈ rest, m.tracked (key y) = c.tracked (key y) := fun y member =>
        others (key y) (apart y member)
      obtain ⟨returns, effects⟩ := ih m distinct.2 fun y member d same =>
        turn y (List.mem_cons_of_mem x member) d (same.trans (kept y member))
      rw [Exec.forM_cons, Exec.bind_ok ran]
      constructor
      · rw [returns, time]
        constructor
        · intro all y member
          rcases List.mem_cons.mp member with rfl | later
          · exact ⟨after, outcome⟩
          · rw [← kept y later]
            exact all y later
        · intro all y member
          rw [kept y member]
          exact all y (List.mem_cons_of_mem x member)
      · intro d finished
        obtain ⟨timeAfter, done, untouched⟩ := effects d finished
        refine ⟨timeAfter.trans time, fun y member => ?_, fun b absent => ?_⟩
        · rcases List.mem_cons.mp member with rfl | later
          · rw [untouched (key y) distinct.1, own]
            exact outcome
          · rw [← time, ← kept y later]
            exact done y later
        · rw [List.map_cons, List.mem_cons, not_or] at absent
          rw [untouched b absent.2, others b absent.1]

/-- What following a vote table does to what is kept of an account. -/
def pvomiOutcome (c : Controller) (votes : Std.ExtTreeMap Address VoteInfo) (a : Address) :
    Except Failure (Option U64 × Option Race) :=
  match votes[a]? with
  | some info => followAccount c.raceTime info (c.tracked a)
  | none => dropAccount (c.tracked a)

theorem nodup_keys {V : Type} (table : Std.ExtTreeMap Address V) : table.keys.Nodup :=
  Std.ExtTreeMap.distinct_keys.imp fun different same => different (by simp [same])

theorem updatePvomiPerblock_run (c : Controller) (votes : Std.ExtTreeMap Address VoteInfo) :
    (Exec.Returned ((updatePvomiPerblock votes).run c) ↔
      ∀ a, ∃ after, c.pvomiOutcome votes a = .ok after) ∧
    ∀ d, (updatePvomiPerblock votes).run c = .ok () d →
      d.raceTime = c.raceTime ∧ ∀ a, c.pvomiOutcome votes a = .ok (d.tracked a) := by
  have distinct : (votes.toList.map (·.1)).Nodup := by
    rw [Std.ExtTreeMap.map_fst_toList_eq_keys]
    exact nodup_keys votes
  have listed : ∀ b, b ∈ votes.toList.map (·.1) ↔ b ∈ votes := by
    intro b
    rw [Std.ExtTreeMap.map_fst_toList_eq_keys, Std.ExtTreeMap.mem_keys]
  have entry : ∀ e ∈ votes.toList, c.pvomiOutcome votes e.1 =
      followAccount c.raceTime e.2 (c.tracked e.1) := by
    intro e member
    rw [pvomiOutcome, Std.ExtTreeMap.mem_toList_iff_getElem?_eq_some.mp member]
  have absent : ∀ b, b ∉ votes → c.pvomiOutcome votes b = dropAccount (c.tracked b) := by
    intro b missing
    rw [pvomiOutcome, Std.ExtTreeMap.getElem?_eq_none missing]
  have member : ∀ b, b ∈ votes → ∃ e ∈ votes.toList, e.1 = b := fun b present =>
    List.mem_map.mp ((listed b).mpr present)
  obtain ⟨returns, effects⟩ := forM_follows (fun e => followCandidate e.1 e.2) (·.1)
    (fun e now kept => followAccount now e.2 kept) votes.toList c distinct
    (fun e _ d _ => followCandidate_endsAs e.1 e.2 d)
  unfold updatePvomiPerblock
  cases first : (votes.toList.forM fun e => followCandidate e.1 e.2).run c with
  | error e m =>
    -- Some listed account cannot be followed.
    rw [first] at returns
    rw [Exec.bind_error first]
    refine ⟨⟨fun returned => absurd returned id, fun all => ?_⟩, fun d ran => nomatch ran⟩
    refine absurd (returns.mpr fun x inside => ?_) id
    rw [← entry x inside]
    exact all x.1
  | ok u m =>
    obtain ⟨time, done, untouched⟩ := effects m first
    rw [Exec.bind_ok first, Exec.run_get_bind]
    -- An account that is not listed is kept as before until it is forgotten.
    have kept : ∀ b, b ∉ votes → m.tracked b = c.tracked b := fun b missing =>
      untouched b fun inside => missing ((listed b).mp inside)
    have gone : ∀ b, b ∈ (m.allVotes.filter fun a _ => a ∉ votes).keys ↔
        b ∈ m.allVotes ∧ b ∉ votes := by
      intro b
      simp [Std.ExtTreeMap.mem_keys, Std.ExtTreeMap.mem_filter]
    obtain ⟨drops, leaves⟩ := forM_follows forget (fun b => b)
      (fun _ _ kept => dropAccount kept) (m.allVotes.filter fun a _ => a ∉ votes).keys m
      (by rw [List.map_id']; exact nodup_keys _)
      (fun b inside d same => by
        obtain ⟨votes, known⟩ := Option.isSome_iff_exists.mp
          (Std.ExtTreeMap.mem_iff_isSome_getElem?.mp ((gone b).mp inside).1)
        exact forget_endsAs ((congrArg Prod.fst same).trans known))
    constructor
    · rw [drops]
      constructor
      · intro all b
        by_cases present : b ∈ votes
        · obtain ⟨e, inside, rfl⟩ := member b present
          rw [entry e inside]
          exact ⟨_, done e inside⟩
        · rw [absent b present, ← kept b present]
          by_cases known : b ∈ m.allVotes
          · exact all b ((gone b).mpr ⟨known, present⟩)
          · exact ⟨_, by rw [tracked, Std.ExtTreeMap.getElem?_eq_none known]; rfl⟩
      · intro all b inside
        rw [kept b ((gone b).mp inside).2, ← absent b ((gone b).mp inside).2]
        exact all b
    · intro d finished
      obtain ⟨timeAfter, dropped, stayed⟩ := leaves d finished
      rw [List.map_id'] at stayed
      refine ⟨timeAfter.trans time, fun b => ?_⟩
      by_cases present : b ∈ votes
      · obtain ⟨e, inside, rfl⟩ := member b present
        rw [stayed e.1 fun lost => ((gone e.1).mp lost).2 present, entry e inside]
        exact done e inside
      · rw [absent b present, ← kept b present]
        by_cases known : b ∈ m.allVotes
        · exact dropped b ((gone b).mpr ⟨known, present⟩)
        · rw [stayed b fun lost => known ((gone b).mp lost).1, tracked,
            Std.ExtTreeMap.getElem?_eq_none known]
          rfl

/-- A name as short as a candidate may have. -/
def shortName : Text 40 := ⟨[65], by decide⟩

/-- A url as short as a candidate may have. -/
def shortUrl : Text 120 := ⟨[65, 65, 65, 65, 65], by decide⟩

end Controller

end Etiam
