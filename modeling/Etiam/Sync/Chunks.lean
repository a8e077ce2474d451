import Etiam.Library.Chunks

/-! The helper functions of the block chain sync for maps of chunks of downloaded items. -/

namespace Etiam

namespace Sync

open Chunks

variable {α : Type}

section Helpers

variable (container : List (ℕ × List α)) (number : ℕ)

/-- The chunks that start before a number, and those from its lower bound on. -/
def lowerBound : List (ℕ × List α) × List (ℕ × List α) :=
  (container.takeWhile (·.1 < number), container.dropWhile (·.1 < number))

/-- A chunk starts at a number. -/
def startsAt (lower : List (ℕ × List α)) : Bool := lower.head?.any (·.1 = number)

/-- A chunk covers a number. -/
def covers (chunk : ℕ × List α) : Bool :=
  chunk.1 ≤ number && number < chunk.1 + chunk.2.length

/-- Whether there is an item with a number. -/
def haveItem : Bool :=
  let (before, lower) := lowerBound container number
  if startsAt number lower then true
  else
    match before.getLast? with
    | none => false
    | some previous => covers number previous

/-- The item with a number. -/
def findItem : Option α :=
  let (before, lower) := lowerBound container number
  if startsAt number lower then lower.head?.bind (·.2.head?)
  else
    match before.getLast? with
    | none => none
    | some previous => if covers number previous then previous.2[number - previous.1]? else none

/-- What is left of a chunk without its items from a number on. -/
def cutAt (chunk : ℕ × List α) : ℕ × List α :=
  if covers number chunk then (chunk.1, chunk.2.take (number - chunk.1)) else chunk

/-- Remove all items from a number on. -/
def removeAllStartingWith : List (ℕ × List α) :=
  let (before, lower) := lowerBound container number
  if startsAt number lower then before
  else
    match before.getLast? with
    | none => []
    | some previous => before.dropLast ++ [cutAt number previous]

/-- Put a chunk before others, joined with the next one if that starts where it ends. -/
def joinNext (chunk : ℕ × List α) : List (ℕ × List α) → List (ℕ × List α)
  | [] => [chunk]
  | next :: rest =>
    if chunk.1 + chunk.2.length = next.1 then (chunk.1, chunk.2 ++ next.2) :: rest
    else chunk :: next :: rest

/-- Insert an item whose number is not there. -/
def mergeInto (data : α) : List (ℕ × List α) :=
  let (before, lower) := lowerBound container number
  match before.getLast?, lower with
  | some previous, _ =>
    if previous.1 + previous.2.length = number then
      before.dropLast ++ joinNext (previous.1, previous.2 ++ [data]) lower
    else before ++ joinNext (number, [data]) lower
  | none, first :: rest =>
    if first.1 + first.2.length = number then joinNext (first.1, first.2 ++ [data]) rest
    else joinNext (number, [data]) (first :: rest)
  | none, [] => [(number, [data])]

end Helpers

section Places

variable {container before rest init lower : List (ℕ × List α)} {chunk previous : ℕ × List α}
  {number k : ℕ} {data : α}

/-- Where a number is among chunks: at the start of one, before all, or after the start of one. -/
inductive Placed (number : ℕ) : List (ℕ × List α) → Prop where
  | start (before rest : List (ℕ × List α)) (chunk : ℕ × List α) (here : chunk.1 = number)
      (below : ∀ c ∈ before, c.1 < number) : Placed number (before ++ chunk :: rest)
  | first (lower : List (ℕ × List α)) (above : ∀ c ∈ lower, number < c.1) : Placed number lower
  | after (init lower : List (ℕ × List α)) (previous : ℕ × List α)
      (below : ∀ c ∈ init ++ [previous], c.1 < number) (above : ∀ c ∈ lower, number < c.1) :
      Placed number (init ++ [previous] ++ lower)

theorem placed (separated : Separated container) (number : ℕ) : Placed number container := by
  induction container with
  | nil => exact .first [] (by simp)
  | cons c rest ih =>
    obtain ⟨-, later, apart⟩ := separated_cons.mp separated
    obtain less | here | more := lt_trichotomy c.1 number
    · cases ih apart with
      | start before rest chunk here below =>
        exact .start (c :: before) rest chunk here (List.forall_mem_cons.mpr ⟨less, below⟩)
      | first _ above => exact .after [] rest c (by simpa using less) above
      | after init lower previous below above =>
        exact .after (c :: init) lower previous (List.forall_mem_cons.mpr ⟨less, below⟩) above
    · exact .start [] rest c here (by simp)
    · refine .first _ (List.forall_mem_cons.mpr ⟨more, fun d member => ?_⟩)
      have := later d member
      omega

theorem lowerBound_append (below : ∀ c ∈ before, c.1 < number)
    (above : ∀ c ∈ lower.head?, number ≤ c.1) :
    lowerBound (before ++ lower) number = (before, lower) := by
  have taken : ∀ c ∈ before, decide (c.1 < number) = true := by simpa using below
  rw [lowerBound, List.takeWhile_append_of_pos taken, List.dropWhile_append_of_pos taken]
  cases lower with
  | nil => simp
  | cons c rest =>
    have stops : ¬ c.1 < number := by simpa using above
    simp [stops]

variable (rest) in
theorem lowerBound_start (here : chunk.1 = number) (below : ∀ c ∈ before, c.1 < number) :
    lowerBound (before ++ chunk :: rest) number = (before, chunk :: rest) ∧
      startsAt number (chunk :: rest) = true :=
  ⟨lowerBound_append below (by simp [here]), by simp [startsAt, here]⟩

theorem lowerBound_above (below : ∀ c ∈ before, c.1 < number)
    (above : ∀ c ∈ lower, number < c.1) :
    lowerBound (before ++ lower) number = (before, lower) ∧ startsAt number lower = false := by
  refine ⟨lowerBound_append below fun c first => (above c (List.mem_of_mem_head? first)).le, ?_⟩
  cases lower with
  | nil => rfl
  | cons c rest =>
    have more := above c List.mem_cons_self
    simp [startsAt, more.ne']

theorem lowerBound_first (above : ∀ c ∈ lower, number < c.1) :
    lowerBound lower number = ([], lower) ∧ startsAt number lower = false :=
  lowerBound_above (List.forall_mem_nil _) above

theorem lookup_above (above : ∀ c ∈ lower, number < c.1) : lookup lower number = none :=
  lookup_eq_none_iff.mpr fun c member => Or.inl (above c member)

theorem lookup_earlier (separated : Separated (init ++ [previous]))
    (started : previous.1 ≤ number) :
    lookup init number = none := by
  refine lookup_eq_none_iff.mpr fun c member => Or.inr ?_
  have := (separated_append.mp separated).2.2 c member previous (List.mem_singleton_self _)
  omega

theorem covers_iff : covers number chunk = true ↔
    chunk.1 ≤ number ∧ number < chunk.1 + chunk.2.length := by
  simp [covers]

theorem findItem_haveItem (separated : Separated container) (number : ℕ) :
    findItem container number = lookup container number ∧
      haveItem container number = (lookup container number).isSome := by
  cases placed separated number with
  | start before rest chunk here below =>
    obtain ⟨bound, starts⟩ := lowerBound_start rest here below
    rw [List.append_cons] at separated
    have earlier := lookup_earlier (separated_append.mp separated).1 here.le
    obtain ⟨item, items, split⟩ := List.exists_cons_of_ne_nil (separated.filled chunk (by simp))
    rw [findItem, haveItem, bound, lookup_append, earlier, lookup_cons, lookup_single]
    simp [starts, here, split]
  | first _ above =>
    obtain ⟨bound, starts⟩ := lowerBound_first above
    rw [findItem, haveItem, bound, lookup_above above]
    simp [starts]
  | after init lower previous below above =>
    obtain ⟨bound, starts⟩ := lowerBound_above below above
    have less := below previous (by simp)
    have earlier := lookup_earlier (separated_append.mp separated).1 less.le
    have result : lookup (init ++ [previous] ++ lower) number =
        previous.2[number - previous.1]? := by
      rw [lookup_append, lookup_append, earlier, lookup_above above, lookup_single,
        if_pos less.le, Option.none_or, Option.or_none]
    rw [findItem, haveItem, bound, result]
    -- The last chunk that starts before the number has it, or ends before it.
    have inside : covers number previous = true ↔ number - previous.1 < previous.2.length := by
      rw [covers_iff]
      omega
    cases covered : covers number previous with
    | true =>
      have lies := inside.mp covered
      simp [starts, covered, lies]
    | false =>
      have ends : previous.2.length ≤ number - previous.1 := by
        rw [← not_lt, ← inside, covered]
        exact Bool.false_ne_true
      simp [starts, covered, ends]

section Truncation

theorem lookup_append_of_lt (later : ∀ c ∈ lower, number ≤ c.1) (less : k < number) :
    lookup (before ++ lower) k = lookup before k := by
  rw [lookup_append, lookup_above fun c member => less.trans_le (later c member), Option.or_none]

theorem lookup_past (ended : ∀ c ∈ before, c.1 + c.2.length ≤ number) (more : number ≤ k) :
    lookup before k = none :=
  lookup_eq_none_iff.mpr fun c member => Or.inr ((ended c member).trans more)

theorem cutAt_fst : (cutAt number chunk).1 = chunk.1 := by
  unfold cutAt
  split <;> rfl

theorem cutAt_filled (less : chunk.1 < number) (filled : chunk.2 ≠ []) :
    (cutAt number chunk).2 ≠ [] := by
  unfold cutAt
  split
  · rw [ne_eq, List.take_eq_nil_iff, not_or]
    exact ⟨by omega, filled⟩
  · exact filled

theorem lookup_cutAt (less : chunk.1 < number) :
    lookup [cutAt number chunk] k = if k < number then lookup [chunk] k else none := by
  unfold cutAt
  split
  · simp only [lookup_single, List.getElem?_take]
    split_ifs <;> first | rfl | omega
  · -- A chunk that does not have the number ends before it.
    rename_i uncovered
    rw [covers_iff] at uncovered
    split
    · rfl
    · rename_i more
      rw [lookup_eq_none_iff, List.forall_mem_singleton]
      omega

theorem removeAllStartingWith_spec (separated : Separated container) (number : ℕ) :
    lookup (removeAllStartingWith container number) =
        (fun k => if k < number then lookup container k else none) ∧
      Separated (removeAllStartingWith container number) := by
  -- The number starts a chunk, is below all of them or above the start of one.
  cases placed separated number with
  | start before rest chunk here below =>
    obtain ⟨bound, starts⟩ := lowerBound_start rest here below
    have result : removeAllStartingWith (before ++ chunk :: rest) number = before := by
      rw [removeAllStartingWith, bound]
      simp [starts]
    obtain ⟨left, right, across⟩ := separated_append.mp separated
    rw [result]
    refine ⟨funext fun k => ?_, left⟩
    split
    · rename_i less
      refine (lookup_append_of_lt (fun c member => ?_) less).symm
      obtain rfl | later := List.mem_cons.mp member
      · exact here.ge
      · have := (separated_cons.mp right).2.1 c later
        omega
    · rename_i more
      refine lookup_past (fun c member => ?_) (not_lt.mp more)
      rw [← here]
      exact (across c member chunk List.mem_cons_self).le
  | first _ above =>
    obtain ⟨bound, starts⟩ := lowerBound_first above
    have result : removeAllStartingWith container number = [] := by
      rw [removeAllStartingWith, bound]
      simp [starts]
    rw [result]
    refine ⟨funext fun k => ?_, separated_nil⟩
    split
    · rename_i less
      exact (lookup_above fun c member => less.trans (above c member)).symm
    · rfl
  | after init lower previous below above =>
    obtain ⟨bound, starts⟩ := lowerBound_above below above
    have less := below previous (by simp)
    have result : removeAllStartingWith (init ++ [previous] ++ lower) number =
        init ++ [cutAt number previous] := by
      rw [removeAllStartingWith, bound]
      simp [starts]
    have left := (separated_append.mp separated).1
    obtain ⟨earlier, last, across⟩ := separated_append.mp left
    rw [result]
    constructor
    · funext k
      rw [lookup_append, lookup_cutAt less]
      split
      · rename_i before
        rw [lookup_append_of_lt (fun c member => (above c member).le) before, lookup_append]
      · rename_i more
        rw [lookup_earlier left (less.le.trans (not_lt.mp more)), Option.none_or]
    · refine separated_append.mpr ⟨earlier, separated_cons.mpr ⟨?_, by simp, separated_nil⟩, ?_⟩
      · exact cutAt_filled less (last.filled previous (List.mem_singleton_self _))
      · intro c member d single
        rw [List.mem_singleton.mp single, cutAt_fst]
        exact across c member previous (List.mem_singleton_self _)

end Truncation

section Insertion

theorem joinNext_cons (next : ℕ × List α) : joinNext chunk (next :: rest) =
    if chunk.1 + chunk.2.length = next.1 then (chunk.1, chunk.2 ++ next.2) :: rest
    else chunk :: next :: rest := rfl

theorem lookup_joinNext : lookup (joinNext chunk rest) k = lookup (chunk :: rest) k := by
  cases rest with
  | nil => rfl
  | cons next others =>
    rw [joinNext_cons]
    split
    · rename_i touches
      rw [lookup_cons, lookup_concat, touches, Option.or_assoc, ← lookup_cons, ← lookup_cons]
    · rfl

theorem joinNext_separated (filled : chunk.2 ≠ [])
    (later : ∀ c ∈ rest, chunk.1 + chunk.2.length ≤ c.1) (separated : Separated rest) :
    Separated (joinNext chunk rest) ∧ ∀ c ∈ joinNext chunk rest, chunk.1 ≤ c.1 := by
  cases rest with
  | nil => exact ⟨separated_cons.mpr ⟨filled, by simp, separated_nil⟩, by simp [joinNext]⟩
  | cons next others =>
    obtain ⟨-, apart, others'⟩ := separated_cons.mp separated
    have touch := later next List.mem_cons_self
    rw [joinNext_cons]
    split
    · rename_i touches
      refine ⟨separated_cons.mpr ⟨by simp [filled], fun d member => ?_, others'⟩, ?_⟩
      · have := apart d member
        simp only [List.length_append]
        omega
      · intro c member
        obtain rfl | behind := List.mem_cons.mp member
        · exact le_rfl
        · have := apart c behind
          omega
    · rename_i gap
      refine ⟨separated_cons.mpr ⟨filled, fun d member => ?_, separated⟩, ?_⟩
      · obtain rfl | behind := List.mem_cons.mp member
        · omega
        · have := apart d behind
          omega
      · intro c member
        obtain rfl | behind := List.mem_cons.mp member
        · exact le_rfl
        · have := later c behind
          omega

theorem append_joinNext_separated (left : Separated before) (right : Separated rest)
    (filled : chunk.2 ≠ []) (earlier : ∀ c ∈ before, c.1 + c.2.length < chunk.1)
    (later : ∀ c ∈ rest, chunk.1 + chunk.2.length ≤ c.1) :
    Separated (before ++ joinNext chunk rest) := by
  obtain ⟨joined, starts⟩ := joinNext_separated filled later right
  refine separated_append.mpr ⟨left, joined, fun c member d behind => ?_⟩
  exact (earlier c member).trans_le (starts d behind)

theorem lookup_insert (absent : lookup before number = none) :
    lookup (before ++ (number, [data]) :: lower) =
      Function.update (lookup (before ++ lower)) number (some data) := by
  funext k
  rw [lookup_append, lookup_cons, lookup_item, Function.update_apply]
  split
  · rename_i same
    rw [same, absent, Option.none_or, Option.some_or]
  · rw [Option.none_or, lookup_append]

theorem mergeInto_spec (separated : Separated container) (absent : lookup container number = none)
    (data : α) :
    lookup (mergeInto container number data) =
        Function.update (lookup container) number (some data) ∧
      Separated (mergeInto container number data) := by
  cases placed separated number with
  | start before rest chunk here below =>
    -- A number that a chunk starts with is there.
    rw [lookup_eq_none_iff] at absent
    have filled := List.length_pos_iff.mpr (separated.filled chunk (by simp))
    have outside := absent chunk (by simp)
    omega
  | first _ above =>
    obtain ⟨bound, -⟩ := lowerBound_first above
    have result : mergeInto container number data = joinNext (number, [data]) container := by
      rw [mergeInto, bound]
      cases container with
      | nil => rfl
      | cons chunk rest =>
        have more := above chunk List.mem_cons_self
        simp only [List.getLast?_nil]
        rw [if_neg (by omega)]
    rw [result]
    refine ⟨funext fun k => ?_, (joinNext_separated (by simp) above separated).1⟩
    rw [lookup_joinNext]
    exact congrFun (lookup_insert (show lookup ([] : List (ℕ × List α)) number = none from rfl)) k
  | after init lower previous below above =>
    obtain ⟨bound, -⟩ := lowerBound_above below above
    obtain ⟨left, right, -⟩ := separated_append.mp separated
    obtain ⟨earlier, last, across⟩ := separated_append.mp left
    have absent : lookup (init ++ [previous]) number = none := by
      rw [lookup_append, Option.or_eq_none_iff] at absent
      exact absent.1
    by_cases ends : previous.1 + previous.2.length = number
    · have result : mergeInto (init ++ [previous] ++ lower) number data =
          init ++ joinNext (previous.1, previous.2 ++ [data]) lower := by
        rw [mergeInto, bound]
        simp [ends]
      rw [result]
      constructor
      · rw [← lookup_insert absent]
        funext k
        rw [lookup_append, lookup_joinNext, lookup_cons, lookup_concat, ends, Option.or_assoc,
          ← lookup_cons, ← Option.or_assoc, ← lookup_append, ← lookup_append]
      · refine append_joinNext_separated earlier right (by simp) ?_ fun c member => ?_
        · exact fun c member => across c member previous (List.mem_singleton_self _)
        · have := above c member
          simp only [List.length_append, List.length_singleton]
          omega
    · have result : mergeInto (init ++ [previous] ++ lower) number data =
          init ++ [previous] ++ joinNext (number, [data]) lower := by
        rw [mergeInto, bound]
        simp [ends]
      rw [result]
      constructor
      · rw [← lookup_insert absent]
        funext k
        rw [lookup_append, lookup_joinNext, ← lookup_append]
      · refine append_joinNext_separated left right (by simp) (fun c member => ?_) above
        -- Each of these chunks starts before the number, does not have it and does not touch it.
        have outside := lookup_eq_none_iff.mp absent c member
        have less := below c member
        obtain before | single := List.mem_append.mp member
        · have := across c before previous (List.mem_singleton_self _)
          have := below previous (by simp)
          change c.1 + c.2.length < number
          omega
        · rw [List.mem_singleton.mp single] at outside less ⊢
          change previous.1 + previous.2.length < number
          omega

end Insertion

/-- Over separated chunks, the helper functions look up, insert and truncate in the finite map that
the chunks stand for, and leave separated chunks. -/
theorem chunks_implement_map (separated : Separated container) (number : ℕ) (data : α) :
    (haveItem container number = (lookup container number).isSome ∧
      findItem container number = lookup container number) ∧
    (lookup container number = none →
      lookup (mergeInto container number data) =
          Function.update (lookup container) number (some data) ∧
        Separated (mergeInto container number data)) ∧
    lookup (removeAllStartingWith container number) =
        (fun k => if k < number then lookup container k else none) ∧
      Separated (removeAllStartingWith container number) := by
  obtain ⟨finds, has⟩ := findItem_haveItem separated number
  exact ⟨⟨has, finds⟩, fun absent => mergeInto_spec separated absent data,
    removeAllStartingWith_spec separated number⟩

/-- The number between two chunks joins them. -/
theorem chunks_implement_map_joined :
    mergeInto [(2, [7, 8]), (5, [9])] 4 0 = [(2, [7, 8, 0, 9])] ∧
      lookup (mergeInto [(2, [7, 8]), (5, [9])] 4 0) =
        Function.update (lookup [(2, [7, 8]), (5, [9])]) 4 (some 0) := by
  have separated : Separated [(2, [7, 8]), (5, [9])] := ⟨by decide, by decide⟩
  exact ⟨by decide, ((chunks_implement_map separated 4 0).2.1 (by decide)).1⟩

end Places

end Sync

end Etiam
