import Etiam.Sync.States

/-!
Which headers are requested from a peer.

Every gap between the stored chunks is looked through in pieces of what may be requested at once.
The first piece with a number that nobody is asked for decides what is requested. All its free
numbers are marked, but the request is for as many numbers in a row from the first of them on.
-/

namespace Etiam

namespace BlockChainSync

open Chunks

variable {β : Type} (s : BlockChainSync β) (peer : Peer)

/-- The pieces of a gap that are looked through one after another. -/
def pieces (start stop : ℕ) : List (List ℕ) :=
  if start < stop then
    List.range' start (min maxRequest (stop - start)) ::
      pieces (start + min maxRequest (stop - start)) stop
  else []
termination_by stop - start
decreasing_by
  have : 0 < maxRequest := by decide
  omega

/-- Nobody is asked for the header with a number. -/
def Free (n : ℕ) : Prop := n ∉ s.downloadingHeaders

instance : DecidablePred s.Free := fun _ => inferInstanceAs (Decidable (¬ _))

/-- The first piece that has a free number. -/
def firstPiece : Option (List ℕ) :=
  (s.headerGaps.flatMap fun gap => pieces gap.1 gap.2).find? fun piece => ∃ n ∈ piece, s.Free n

/-- No number that is asked for stands between two free ones of the first piece that has any. -/
def Unbroken : Prop :=
  ∀ piece, s.firstPiece = some piece → ∀ i ∈ piece, ∀ k ∈ piece, ∀ j, i < j → j < k →
    s.Free i → s.Free k → s.Free j

/-- A request for a range of headers that are exactly those newly marked for the peer, all missing
and in one gap. -/
structure Exact (t : BlockChainSync β) (start count : ℕ) : Prop where
  few : count ≤ maxRequest
  marked : t.downloadingHeaders \ s.downloadingHeaders = Finset.Ico start (start + count)
  noted : t.headerSyncPeers peer = List.range' start count
  missing : ∀ n ∈ Finset.Ico start (start + count), Sync.haveItem s.headers n = false
  inGap : ∃ gap ∈ s.headerGaps, gap.1 ≤ start ∧ start + count ≤ gap.2

/-- The loop ends with no request and no change, or with one request that is exact. -/
def RequestsExactly : Prop :=
  ∃ answer : Option SyncRequest × BlockChainSync β,
    (∀ fuel, s.headerRounds ≤ fuel → s.headerPart peer fuel = some answer) ∧
      (answer = (none, s) ∨ ∃ start count, answer.1 = some (.blockHeaders start count) ∧
        s.Exact peer answer.2 start count)

/-- What a piece leads to: its free numbers are marked, and as many are requested. -/
def requestPiece : Option (List ℕ) → Option SyncRequest × BlockChainSync β
  | none => (none, s)
  | some piece =>
    let headers := piece.filter s.Free
    (some (.blockHeaders (headers.headD 0) headers.length), { s with
      downloadingHeaders := s.downloadingHeaders ∪ headers.toFinset
      headerSyncPeers := Function.update s.headerSyncPeers peer headers })

section Loop

variable {s peer}

variable {start count first left stop : ℕ}

section

variable (skipped : s.skipDownloading start count = (first, left))

include skipped

/-- Skipping the numbers that are asked for loses no free one and ends at a free one or at the
end. -/
theorem skipDownloading_spec :
    first + left = start + count ∧
      (List.range' first left).filter s.Free = (List.range' start count).filter s.Free ∧
      (left ≠ 0 → s.Free first) := by
  fun_induction skipDownloading s start count with
  | case1 start =>
    cases skipped
    simp
  | case2 start count taken ih =>
    -- The number that is skipped is not free, so nothing is lost.
    obtain ⟨whole, same, free⟩ := ih skipped
    refine ⟨by omega, ?_, free⟩
    rw [same, List.range'_succ, List.filter_cons_of_neg (by simp [Free, taken])]
  | case3 start count free =>
    cases skipped
    exact ⟨rfl, rfl, fun _ => free⟩

/-- Where something is free, skipping ends at the first free number. -/
theorem head_of_skipped (filled : (List.range' first left).filter s.Free ≠ []) :
    ((List.range' start count).filter s.Free).headD 0 = first ∧
      ∃ n ∈ List.range' start count, s.Free n := by
  obtain ⟨-, same, free⟩ := skipDownloading_spec skipped
  cases left with
  | zero => simp at filled
  | succ left =>
    have head : (List.range' first (left + 1)).filter s.Free =
        first :: (List.range' (first + 1) left).filter s.Free := by
      rw [List.range'_succ, List.filter_cons_of_pos (by simpa using free (by simp))]
    have member : first ∈ (List.range' start count).filter s.Free := by simp [← same, head]
    rw [← same, head]
    exact ⟨rfl, first, (List.mem_filter.mp member).1, free (by simp)⟩

theorem end_of_skipped (nothing : (List.range' first left).filter s.Free = []) :
    first = start + count ∧ ¬ ∃ n ∈ List.range' start count, s.Free n := by
  obtain ⟨whole, same, free⟩ := skipDownloading_spec skipped
  have past : left = 0 := by
    by_contra more
    have member : first ∈ (List.range' first left).filter s.Free := by
      simpa [List.mem_range'_1] using ⟨Nat.pos_of_ne_zero more, free more⟩
    rw [nothing] at member
    cases member
  rw [same, List.filter_eq_nil_iff] at nothing
  refine ⟨by omega, ?_⟩
  rintro ⟨n, member, isFree⟩
  exact nothing n member (by simpa using isFree)

end

theorem pieces_of_lt (less : start < stop) : pieces start stop =
    List.range' start (min maxRequest (stop - start)) ::
      pieces (start + min maxRequest (stop - start)) stop := by
  rw [pieces, if_pos less]

theorem pieces_of_le (le : stop ≤ start) : pieces start stop = [] := by
  rw [pieces, if_neg (by omega)]

theorem mem_pieces {piece : List ℕ} (member : piece ∈ pieces start stop) :
    ∃ first count, piece = List.range' first count ∧ count ≤ maxRequest ∧ start ≤ first ∧
      first + count ≤ stop := by
  fun_induction pieces start stop with
  | case1 start less ih =>
    obtain rfl | later := List.mem_cons.mp member
    · exact ⟨start, _, rfl, min_le_left .., le_rfl, by omega⟩
    · obtain ⟨first, count, same, few, after, inside⟩ := ih later
      exact ⟨first, count, same, few, by omega, inside⟩
  | case2 => cases member

/-- The rounds that the loop needs for the gaps that are left. -/
def roundsFrom (start : ℕ) (next : List (ℕ × List SyncHeader)) : ℕ :=
  ((gapsFrom start next).map fun gap => gap.2 - gap.1 + 1).sum

theorem requestHeaders_eq {fuel : ℕ} {next : List (ℕ × List SyncHeader)}
    (before : ∀ c ∈ next, start < c.1) (separated : Separated next)
    (enough : roundsFrom start next ≤ fuel) :
    s.requestHeaders peer fuel start next = some (s.requestPiece peer
      (((gapsFrom start next).flatMap fun gap => pieces gap.1 gap.2).find?
        fun piece => ∃ n ∈ piece, s.Free n)) := by
  fun_induction requestHeaders s peer fuel start next with
  | case1 => rfl
  | case2 start c rest =>
    -- Every chunk that is left has a round to go.
    simp [roundsFrom, gapsFrom] at enough
  | case3 fuel start next rest first left skipped headers filled =>
    have less : start < next.1 := before next List.mem_cons_self
    obtain ⟨-, same, -⟩ := skipDownloading_spec skipped
    obtain ⟨head, free⟩ := head_of_skipped skipped filled
    rw [gapsFrom, List.flatMap_cons, pieces_of_lt less, List.cons_append,
      List.find?_cons_of_pos (by simpa using free)]
    dsimp only [requestPiece]
    rw [head, ← same]
    rfl
  | case4 fuel start next rest first left skipped headers nothing past ih =>
    have less : start < next.1 := before next List.mem_cons_self
    obtain ⟨-, later, others⟩ := separated_cons.mp separated
    obtain ⟨reached, taken⟩ := end_of_skipped skipped (not_not.mp nothing)
    rw [roundsFrom, gapsFrom, List.map_cons, List.sum_cons] at enough
    rw [ih later others (by unfold roundsFrom; omega), gapsFrom, List.flatMap_cons,
      pieces_of_lt less, ← reached, pieces_of_le past, List.cons_append, List.nil_append,
      List.find?_cons_of_neg (by simpa using taken)]
  | case5 fuel start next rest first left skipped headers nothing more ih =>
    have less : start < next.1 := before next List.mem_cons_self
    obtain ⟨reached, taken⟩ := end_of_skipped skipped (not_not.mp nothing)
    have advanced : start < first := by
      have : 0 < maxRequest := by decide
      omega
    rw [roundsFrom, gapsFrom, List.map_cons, List.sum_cons] at enough
    rw [ih ?_ separated ?_, gapsFrom, gapsFrom, List.flatMap_cons, List.flatMap_cons,
      pieces_of_lt less, ← reached, List.cons_append, List.find?_cons_of_neg (by simpa using taken)]
    · intro c member
      obtain rfl | later := List.mem_cons.mp member
      · exact not_le.mp more
      · have := (separated_cons.mp separated).2.1 c later
        omega
    · rw [roundsFrom, gapsFrom, List.map_cons, List.sum_cons]
      dsimp only at enough ⊢
      omega

theorem roundsFrom_le (start : ℕ) (next : List (ℕ × List SyncHeader)) :
    roundsFrom start next ≤ (next.map (·.1)).sum + next.length := by
  induction next generalizing start with
  | nil => rfl
  | cons c rest ih =>
    have := ih (c.1 + c.2.length)
    rw [roundsFrom] at this ⊢
    simp only [gapsFrom, List.map_cons, List.sum_cons, List.length_cons]
    omega

theorem lookup_of_gap {next : List (ℕ × List SyncHeader)} {gap : ℕ × ℕ}
    (before : ∀ c ∈ next, start < c.1) (separated : Separated next)
    (member : gap ∈ gapsFrom start next) :
    start ≤ gap.1 ∧ ∀ n, gap.1 ≤ n → n < gap.2 → lookup next n = none := by
  induction next generalizing start with
  | nil => cases member
  | cons c rest ih =>
    obtain ⟨-, later, others⟩ := separated_cons.mp separated
    have first : start < c.1 := before c List.mem_cons_self
    obtain rfl | member := List.mem_cons.mp member
    · refine ⟨le_rfl, fun n _ less => lookup_eq_none_iff.mpr fun d listed => .inl ?_⟩
      obtain rfl | listed := List.mem_cons.mp listed
      · exact less
      · have := later d listed
        dsimp only at less
        omega
    · obtain ⟨after, missing⟩ := ih later others member
      refine ⟨by omega, fun n started less => ?_⟩
      rw [lookup_cons, missing n started less, Option.or_none, lookup_eq_none_iff]
      simp only [List.forall_mem_singleton]
      omega

end Loop

section Answer

variable {s}

theorem mem_filter_free {piece : List ℕ} {n : ℕ} :
    n ∈ piece.filter s.Free ↔ n ∈ piece ∧ s.Free n := by
  rw [List.mem_filter, decide_eq_true_iff]

theorem headerPart_eq (separated : Separated s.headers) {fuel : ℕ}
    (enough : s.headerRounds ≤ fuel) :
    s.headerPart peer fuel = some (s.requestPiece peer s.firstPiece) := by
  unfold headerPart firstPiece headerGaps
  unfold headerRounds at enough
  cases stored : s.headers with
  | nil => rfl
  | cons c rest =>
    rw [stored] at separated enough
    obtain ⟨-, later, others⟩ := separated_cons.mp separated
    have whole := roundsFrom_le (nextNumber s.syncStartBlock) (c :: rest)
    have others' := roundsFrom_le (c.1 + c.2.length) rest
    dsimp only
    split
    · simp only [List.map_cons, List.sum_cons, List.length_cons] at enough
      exact requestHeaders_eq later others (by omega)
    · next above =>
      refine requestHeaders_eq (fun d listed => ?_) separated (by omega)
      obtain rfl | listed := List.mem_cons.mp listed
      · exact not_le.mp above
      · have := later d listed
        omega

theorem missing_of_gap (separated : Separated s.headers) {gap : ℕ × ℕ}
    (member : gap ∈ s.headerGaps) {n : ℕ} (started : gap.1 ≤ n) (less : n < gap.2) :
    Sync.haveItem s.headers n = false := by
  rw [(Sync.findItem_haveItem separated n).2, Option.isSome_eq_false_iff,
    Option.isNone_iff_eq_none]
  unfold headerGaps at member
  cases stored : s.headers with
  | nil => rfl
  | cons c rest =>
    rw [stored] at separated member
    obtain ⟨-, later, others⟩ := separated_cons.mp separated
    dsimp only at member
    split at member
    · obtain ⟨after, missing⟩ := lookup_of_gap later others member
      rw [lookup_cons, missing n started less, Option.or_none, lookup_eq_none_iff]
      simp only [List.forall_mem_singleton]
      omega
    · next above =>
      refine (lookup_of_gap (fun d listed => ?_) separated member).2 n started less
      obtain rfl | listed := List.mem_cons.mp listed
      · exact not_le.mp above
      · have := later d listed
        omega

theorem firstPiece_range {piece : List ℕ} (found : s.firstPiece = some piece) :
    ∃ gap ∈ s.headerGaps, ∃ first count, piece = List.range' first count ∧ count ≤ maxRequest ∧
      gap.1 ≤ first ∧ first + count ≤ gap.2 := by
  obtain ⟨gap, member, listed⟩ := List.mem_flatMap.mp (List.mem_of_find?_eq_some found)
  obtain ⟨first, count, range⟩ := mem_pieces listed
  exact ⟨gap, member, first, count, range⟩

theorem filter_free_range (first count : ℕ) (unbroken : ∀ i ∈ List.range' first count,
      ∀ k ∈ List.range' first count, ∀ j, i < j → j < k → s.Free i → s.Free k → s.Free j) :
    (List.range' first count).filter s.Free =
      List.range' (((List.range' first count).filter s.Free).headD 0)
        ((List.range' first count).filter s.Free).length := by
  induction count generalizing first with
  | zero => rfl
  | succ count ih =>
    rw [List.range'_succ] at unbroken ⊢
    have rest := ih (first + 1) fun i here k there =>
      unbroken i (List.mem_cons_of_mem _ here) k (List.mem_cons_of_mem _ there)
    by_cases free : s.Free first
    · rw [List.filter_cons_of_pos (by simpa using free), List.headD_cons, List.length_cons,
        List.range'_succ]
      congr 1
      cases free' : (List.range' (first + 1) count).filter s.Free with
      | nil => rfl
      | cons next others =>
        -- A later free number makes the one that follows the first free, so it comes next.
        have member : next ∈ (List.range' (first + 1) count).filter s.Free := by simp [free']
        obtain ⟨listed, isFree⟩ := mem_filter_free.mp member
        obtain ⟨after, -⟩ := List.mem_range'_1.mp listed
        have follows : s.Free (first + 1) := by
          obtain rfl | more := after.eq_or_lt
          · exact isFree
          · exact unbroken first List.mem_cons_self next (List.mem_cons_of_mem _ listed) _
              (Nat.lt_succ_self first) more free isFree
        have head : next = first + 1 := by
          cases count with
          | zero => cases listed
          | succ count =>
            rw [List.range'_succ, List.filter_cons_of_pos (by simpa using follows)] at free'
            exact (List.cons.inj free').1.symm
        rw [free', List.headD_cons, head] at rest
        rw [head]
        exact rest
    · rw [List.filter_cons_of_neg (by simpa using free)]
      exact rest

variable (s) in
theorem marked_requestPiece (piece : List ℕ) :
    (s.requestPiece peer (some piece)).2.downloadingHeaders \ s.downloadingHeaders =
      (piece.filter s.Free).toFinset := by
  ext n
  simp only [requestPiece, Finset.mem_sdiff, Finset.mem_union, List.mem_toFinset, mem_filter_free]
  unfold Free
  tauto

/-- A request for a piece is exact if the free numbers of the piece are a range. -/
theorem exact_of_range (separated : Separated s.headers) {gap : ℕ × ℕ} {first count : ℕ}
    (found : s.firstPiece = some (List.range' first count)) (member : gap ∈ s.headerGaps)
    (few : count ≤ maxRequest) (started : gap.1 ≤ first) (inside : first + count ≤ gap.2)
    (range : (List.range' first count).filter s.Free =
      List.range' (((List.range' first count).filter s.Free).headD 0)
        ((List.range' first count).filter s.Free).length) :
    s.Exact peer (s.requestPiece peer (some (List.range' first count))).2
      (((List.range' first count).filter s.Free).headD 0)
      ((List.range' first count).filter s.Free).length := by
  have marked := s.marked_requestPiece peer (List.range' first count)
  have noted : (s.requestPiece peer (some (List.range' first count))).2.headerSyncPeers peer =
      (List.range' first count).filter s.Free := Function.update_self ..
  have short : ((List.range' first count).filter s.Free).length ≤ count :=
    (List.length_filter_le ..).trans (by simp)
  have listed : ∀ n ∈ (List.range' first count).filter s.Free, first ≤ n ∧ n < first + count :=
    fun n member => List.mem_range'_1.mp (mem_filter_free.mp member).1
  have filled : (List.range' first count).filter s.Free ≠ [] := by
    have some_ := List.find?_some found
    obtain ⟨n, here, free⟩ := of_decide_eq_true some_
    exact List.ne_nil_of_mem (mem_filter_free.mpr ⟨here, free⟩)
  generalize (List.range' first count).filter s.Free = headers at *
  generalize headers.headD 0 = start at *
  generalize same : headers.length = number at *
  subst range
  have positive : 0 < number := by
    rw [← same]
    exact List.length_pos_of_ne_nil filled
  have low := listed start (List.mem_range'_1.mpr ⟨le_rfl, by omega⟩)
  have high := listed (start + number - 1) (List.mem_range'_1.mpr ⟨by omega, by omega⟩)
  refine ⟨short.trans few, ?_, noted, fun n asked => ?_, gap, member, by omega, by omega⟩
  · rw [marked]
    ext n
    rw [List.mem_toFinset, List.mem_range'_1, Finset.mem_Ico]
  · rw [Finset.mem_Ico] at asked
    exact missing_of_gap separated member (by omega) (by omega)

/-- The header part of a request ends, and it is exact if and only if no number that is asked for
stands between two free ones of the first piece that has any. -/
theorem header_request_exact_iff (separated : Separated s.headers) :
    (∃ answer, ∀ fuel, s.headerRounds ≤ fuel → s.headerPart peer fuel = some answer) ∧
      (s.RequestsExactly peer ↔ s.Unbroken) := by
  refine ⟨⟨_, fun fuel => headerPart_eq peer separated⟩, ?_⟩
  constructor
  · rintro ⟨answer, ends, exact_⟩ piece found i here k there j after before freeI freeK
    have answered := ends _ le_rfl
    rw [headerPart_eq peer separated le_rfl, found, Option.some.injEq] at answered
    subst answered
    obtain nothing | ⟨start, count, asked, exact_⟩ := exact_
    · cases congrArg Prod.fst nothing
    · -- Both ends are marked, so what lies between is in the range and marked as well.
      have marked := exact_.marked
      rw [marked_requestPiece] at marked
      have inside : ∀ n ∈ piece, s.Free n → n ∈ Finset.Ico start (start + count) :=
        fun n member free => by
          rw [← marked, List.mem_toFinset]
          exact mem_filter_free.mpr ⟨member, free⟩
      have low := (Finset.mem_Ico.mp (inside i here freeI)).1
      have high := (Finset.mem_Ico.mp (inside k there freeK)).2
      have between : j ∈ Finset.Ico start (start + count) :=
        Finset.mem_Ico.mpr ⟨by omega, by omega⟩
      rw [← marked, List.mem_toFinset] at between
      exact (mem_filter_free.mp between).2
  · intro unbroken
    refine ⟨s.requestPiece peer s.firstPiece, fun fuel => headerPart_eq peer separated, ?_⟩
    cases found : s.firstPiece with
    | none => exact .inl rfl
    | some piece =>
      obtain ⟨gap, member, first, count, rfl, few, started, inside⟩ := firstPiece_range found
      exact .inr ⟨_, _, rfl, exact_of_range peer separated found member few started inside
        (filter_free_range first count (unbroken _ found))⟩

end Answer

section Samples

/-- A sync with the headers 1 and 6 and the body of the first, where some numbers are asked for. -/
def sampleGap (asked : Finset ℕ) : BlockChainSync ℕ :=
  { (start 0 100 0 100 : BlockChainSync ℕ) with
    headers := [(1, [sampleHeader 0 1]), (6, [sampleHeader 0 6])]
    bodies := [(1, [1])]
    downloadingHeaders := asked }

theorem separated_sampleGap (asked : Finset ℕ) : Separated (sampleGap asked).headers :=
  ⟨by simp [sampleGap], by simp [sampleGap]⟩

/-- With the number after the first chunk asked for already, the rest of the gap is requested. -/
theorem header_request_exact_prefix : (sampleGap {2}).RequestsExactly 1 := by
  refine (header_request_exact_iff 1 (separated_sampleGap {2})).2.mpr ?_
  have gaps : (sampleGap {2}).headerGaps = [(2, 6)] := rfl
  have piece : (sampleGap {2}).firstPiece = some [2, 3, 4, 5] := by
    rw [firstPiece, gaps, List.flatMap_singleton, pieces_of_lt (by decide),
      pieces_of_le (by decide)]
    decide
  intro other found i here k there j after before freeI freeK
  rw [piece, Option.some.injEq] at found
  subst found
  simp only [List.mem_cons, List.not_mem_nil, or_false] at here
  simp only [Free, sampleGap, Finset.mem_singleton]
  omega

/-- With a number in the middle of the gap asked for, the two that follow it are marked and one of
them is not requested, while the number in the middle is requested twice. -/
theorem header_request_inexact : (sampleGap {3}).neededBodies = [] ∧
    ((sampleGap {3}).syncHeadersAndBodiesFrom 1).1 = some (.blockHeaders 2 3) ∧
    ((sampleGap {3}).syncHeadersAndBodiesFrom 1).2.downloadingHeaders \ {3} = {2, 4, 5} ∧
    Finset.Ico 2 (2 + 3) ≠ ({2, 4, 5} : Finset ℕ) := by
  decide

end Samples

end BlockChainSync

end Etiam
