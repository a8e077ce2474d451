import Etiam.Sync.Outcomes

/-! Which headers and bodies are stored, and what storing another one keeps. -/

namespace Etiam

namespace BlockChainSync

open Chunks

variable {β : Type} {facts : BodyFacts β} {host : SyncHost β} {s t : BlockChainSync β}

section Chunks

variable {α : Type} {first i n : ℕ} {items : List α} {rest : List (ℕ × List α)}

theorem lookup_dropFirst (separated : Separated ((first, items) :: rest)) (few : i ≤ items.length) :
    lookup (dropFirst i first items rest) n =
      if n < first + i then none else lookup ((first, items) :: rest) n := by
  have later : ∀ d ∈ rest, first + items.length < d.1 := (separated_cons.mp separated).2.1
  have whole : lookup [(first, items)] n =
      (lookup [(first, items.take i)] n).or (lookup [(first + i, items.drop i)] n) := by
    have cut := lookup_concat (k := first) (n := n) (items.take i) (items.drop i)
    rwa [List.take_append_drop, List.length_take_of_le few] at cut
  have dropped : lookup (dropFirst i first items rest) n =
      (lookup [(first + i, items.drop i)] n).or (lookup rest n) := by
    unfold dropFirst
    split
    · rename_i none
      rw [none, lookup_single]
      simp
    · rw [lookup_cons]
  rw [dropped]
  split
  · -- A smaller number is before what is left.
    rename_i less
    rw [Option.or_eq_none_iff, lookup_eq_none_iff, lookup_eq_none_iff]
    refine ⟨by simpa using Or.inl less, fun c member => Or.inl ?_⟩
    have := later c member
    omega
  · rename_i more
    have past : lookup [(first, items.take i)] n = none := by
      rw [lookup_eq_none_iff, List.forall_mem_singleton, List.length_take_of_le few]
      exact Or.inr (not_lt.mp more)
    rw [lookup_cons (l := rest), whole, past, Option.none_or]

theorem separated_dropFirst (separated : Separated ((first, items) :: rest))
    (few : i ≤ items.length) : Separated (dropFirst i first items rest) := by
  have later : ∀ d ∈ rest, first + items.length < d.1 := (separated_cons.mp separated).2.1
  have others := (separated_cons.mp separated).2.2
  unfold dropFirst
  split
  · exact others
  · rename_i some
    refine separated_cons.mpr ⟨some, fun d member => ?_, others⟩
    have := later d member
    simp only [List.length_drop]
    omega

end Chunks

/-- Headers are stored under their numbers, and bodies only where there are headers. -/
structure Stored (s : BlockChainSync β) : Prop where
  headers : Separated s.headers
  bodies : Separated s.bodies
  numbered : ∀ n h, lookup s.headers n = some h → h.blockNumber = n
  covered : ∀ n, lookup s.bodies n ≠ none → lookup s.headers n ≠ none

theorem Stored.of_same (stored : s.Stored) (headers : t.headers = s.headers)
    (bodies : t.bodies = s.bodies) : t.Stored := by
  obtain ⟨headersApart, bodiesApart, numbered, covered⟩ := stored
  exact ⟨headers ▸ headersApart, bodies ▸ bodiesApart, headers ▸ numbered, by
    rw [headers, bodies]
    exact covered⟩

theorem Clear.stored (clear : s.Clear) : s.Stored := by
  refine ⟨?_, ?_, ?_, ?_⟩
  · rw [clear.headers]
    exact separated_nil
  · rw [clear.bodies]
    exact separated_nil
  · simp [clear.headers, lookup]
  · simp [clear.bodies, lookup]

section Data

variable {h : SyncHeader} {body : β}

section Frame

variable (facts s h) in
theorem frame_storeHeader :
    (s.storeHeader facts h).resetSyncTempData = s.resetSyncTempData := reset_storeHeader h

theorem currState_storeHeader : (s.storeHeader facts h).currState = s.currState :=
  congrArg (fun u => u.currState) (frame_storeHeader facts s h)

theorem start_storeHeader : (s.storeHeader facts h).syncStartBlock = s.syncStartBlock :=
  congrArg (fun u => u.syncStartBlock) (frame_storeHeader facts s h)

theorem startHash_storeHeader :
    (s.storeHeader facts h).syncStartBlockHash = s.syncStartBlockHash :=
  congrArg (fun u => u.syncStartBlockHash) (frame_storeHeader facts s h)

theorem lastIrr_storeHeader : (s.storeHeader facts h).syncLastIrrBlock = s.syncLastIrrBlock :=
  congrArg (fun u => u.syncLastIrrBlock) (frame_storeHeader facts s h)

end Frame

theorem headers_storeHeader :
    (s.storeHeader facts h).headers = Sync.mergeInto s.headers h.blockNumber h := by
  unfold storeHeader
  split <;> rfl

variable (stored : s.Stored)

include stored

theorem Stored.findItem (n : ℕ) : Sync.findItem s.headers n = lookup s.headers n :=
  (Sync.findItem_haveItem stored.headers n).1

theorem Stored.haveItem_header (n : ℕ) :
    Sync.haveItem s.headers n = false ↔ lookup s.headers n = none := by
  rw [(Sync.findItem_haveItem stored.headers n).2, Option.isSome_eq_false_iff,
    Option.isNone_iff_eq_none]

theorem Stored.haveItem_body (n : ℕ) :
    Sync.haveItem s.bodies n = false ↔ lookup s.bodies n = none := by
  rw [(Sync.findItem_haveItem stored.bodies n).2, Option.isSome_eq_false_iff,
    Option.isNone_iff_eq_none]

theorem Stored.body_absent {n : ℕ} (absent : lookup s.headers n = none) :
    lookup s.bodies n = none := by
  by_contra present
  exact stored.covered n present absent

theorem lookup_storeHeader (absent : lookup s.headers h.blockNumber = none) :
    lookup (s.storeHeader facts h).headers =
      Function.update (lookup s.headers) h.blockNumber (some h) := by
  rw [headers_storeHeader]
  exact (Sync.mergeInto_spec stored.headers absent h).1

theorem lookup_storeHeader_body (absent : lookup s.headers h.blockNumber = none) :
    lookup (s.storeHeader facts h).bodies = if h.id = facts.id facts.emptyBody then
      Function.update (lookup s.bodies) h.blockNumber (some facts.emptyBody)
      else lookup s.bodies := by
  unfold storeHeader
  split
  · exact (Sync.mergeInto_spec stored.bodies (stored.body_absent absent) _).1
  · rfl

theorem Stored.storeHeader (absent : lookup s.headers h.blockNumber = none) :
    (s.storeHeader facts h).Stored where
  headers := by
    rw [headers_storeHeader]
    exact (Sync.mergeInto_spec stored.headers absent h).2
  bodies := by
    unfold BlockChainSync.storeHeader
    split
    · exact (Sync.mergeInto_spec stored.bodies (stored.body_absent absent) _).2
    · exact stored.bodies
  numbered := by
    intro n g found
    rw [lookup_storeHeader stored absent, Function.update_apply] at found
    split at found
    · rename_i same
      rw [← Option.some.inj found, same]
    · exact stored.numbered n g found
  covered := by
    intro n
    rw [lookup_storeHeader stored absent, lookup_storeHeader_body stored absent]
    by_cases same : n = h.blockNumber
    · simp [same]
    · rw [Function.update_of_ne same]
      split
      · rw [Function.update_of_ne same]
        exact stored.covered n
      · exact stored.covered n

theorem lookup_dropFollowing :
    lookup (s.dropFollowing h).headers = (fun k =>
        if k < nextNumber h.blockNumber then lookup s.headers k else none) ∧
      lookup (s.dropFollowing h).bodies = (fun k =>
        if k < nextNumber h.blockNumber then lookup s.bodies k else none) :=
  ⟨(Sync.removeAllStartingWith_spec stored.headers _).1,
    (Sync.removeAllStartingWith_spec stored.bodies _).1⟩

theorem Stored.dropFollowing : (s.dropFollowing h).Stored where
  headers := (Sync.removeAllStartingWith_spec stored.headers _).2
  bodies := (Sync.removeAllStartingWith_spec stored.bodies _).2
  numbered := by
    intro n g
    rw [(lookup_dropFollowing stored).1]
    simp only
    split
    · exact stored.numbered n g
    · simp
  covered := by
    intro n
    rw [(lookup_dropFollowing stored).1, (lookup_dropFollowing stored).2]
    simp only
    split
    · exact stored.covered n
    · simp

end Data

section Headers

variable {h : SyncHeader} {items : List SyncHeader}

/-- A header is stored that is past the start, not there yet, and fits the header before it. -/
structure Admits (s : BlockChainSync β) (h : SyncHeader) : Prop where
  past : s.syncStartBlock < h.blockNumber
  high : s.syncLastIrrBlock ≤ h.blockNumber
  absent : Sync.haveItem s.headers h.blockNumber = false
  previous : ∀ g, Sync.findItem s.headers (prevNumber h.blockNumber) = some g →
    g.hash = h.parentHash
  start : h.blockNumber = nextNumber s.syncStartBlock → h.parentHash = s.syncStartBlockHash

/-- A header is the parent of the one that is stored after it. -/
def FitsNext (s : BlockChainSync β) (h : SyncHeader) : Prop :=
  ∀ g, Sync.findItem s.headers (nextNumber h.blockNumber) = some g → g.parentHash = h.hash

theorem checkHeader_cases (kept : s.skipsHeader h = false) :
    s.checkHeader h = (false, s.resetSyncTempData) ∨ s.Admits h ∧
      (s.checkHeader h = (true, s.dropFollowing h) ∧ ¬ s.FitsNext h ∨
        s.checkHeader h = (true, s) ∧ s.FitsNext h) := by
  unfold checkHeader
  simp only
  split
  · exact Or.inl rfl
  rename_i fits
  right
  simp only [not_or, not_and, not_not, Option.any_eq_true, not_exists, decide_eq_true_eq] at fits
  simp only [skipsHeader, decide_eq_false_iff_not, not_or, not_le, not_lt] at kept
  refine ⟨⟨kept.1, kept.2.1, by simpa using kept.2.2, fits.1, fits.2⟩, ?_⟩
  split
  · rename_i mismatch
    refine Or.inl ⟨rfl, fun fitting => ?_⟩
    simp only [Option.any_eq_true, decide_eq_true_eq] at mismatch
    obtain ⟨g, found, other⟩ := mismatch
    exact other (fitting g found)
  · rename_i fitting
    refine Or.inr ⟨rfl, fun g found => ?_⟩
    simp only [Option.any_eq_true, not_exists, not_and, decide_eq_true_eq, not_not] at fitting
    exact fitting g found

/-- What storing a header of a packet keeps, with and without dropping others, a packet keeps. -/
theorem storeHeaders_keeps {P : BlockChainSync β → Prop}
    (dropped : ∀ u, ∀ h ∈ items, P u → u.Admits h → ¬ u.FitsNext h →
      P ((u.dropFollowing h).storeHeader facts h))
    (fitting : ∀ u, ∀ h ∈ items, P u → u.Admits h → u.FitsNext h → P (u.storeHeader facts h))
    (held : P s) (ended : s.storeHeaders facts items = (true, t)) : P t := by
  induction items generalizing s with
  | nil =>
    obtain rfl := (Prod.mk.inj ended).2
    exact held
  | cons h rest ih =>
    have ih := fun {s} =>
      ih (s := s) (fun u g member => dropped u g (List.mem_cons_of_mem h member))
      fun u g member => fitting u g (List.mem_cons_of_mem h member)
    rw [storeHeaders] at ended
    split at ended
    · exact ih held ended
    · rename_i kept
      rw [Bool.not_eq_true] at kept
      obtain failed | ⟨admits, ⟨checked, misfit⟩ | ⟨checked, fits⟩⟩ := checkHeader_cases kept
      · rw [failed] at ended
        cases ended
      · rw [checked] at ended
        exact ih (dropped s h List.mem_cons_self held admits misfit) ended
      · rw [checked] at ended
        exact ih (fitting s h List.mem_cons_self held admits fits) ended

theorem Stored.absent (stored : s.Stored) (admits : s.Admits h) :
    lookup s.headers h.blockNumber = none :=
  (stored.haveItem_header _).mp admits.absent

theorem Stored.absent_dropFollowing (stored : s.Stored) (admits : s.Admits h) :
    lookup (s.dropFollowing h).headers h.blockNumber = none := by
  rw [(lookup_dropFollowing stored).1]
  simp [stored.absent admits]

theorem Stored.storeHeaders (stored : s.Stored) (ended : s.storeHeaders facts items = (true, t)) :
    t.Stored := by
  refine storeHeaders_keeps ?_ ?_ stored ended
  · intro u h _ held admits _
    exact held.dropFollowing.storeHeader (held.absent_dropFollowing admits)
  · intro u h _ held admits _
    exact held.storeHeader (held.absent admits)

end Headers

section Bodies

variable {body : β} {items : List (Option β)}

variable (facts s body) in
/-- A body is passed over, or stored where a header with its identifier is. -/
theorem storeBody_cases : s.storeBody facts body = s ∨ ∃ number,
    s.headerIdToNumber (facts.id body) = some number ∧ Sync.haveItem s.headers number = true ∧
    Sync.haveItem s.bodies number = false ∧ s.storeBody facts body = { s with
      headerIdToNumber := Function.update s.headerIdToNumber (facts.id body) none
      bodies := Sync.mergeInto s.bodies number body } := by
  unfold storeBody
  split
  · exact Or.inl rfl
  · rename_i number known
    split
    · exact Or.inl rfl
    · rename_i missing
      simp only [not_or, Bool.not_eq_false, Bool.not_eq_true] at missing
      exact Or.inr ⟨number, known, missing.1, missing.2, rfl⟩

theorem storeBodies_keeps {P : BlockChainSync β → Prop}
    (step : ∀ u body, P u → P (u.storeBody facts body)) (held : P s) :
    P (s.storeBodies facts items).2 := by
  induction items generalizing s with
  | nil => exact held
  | cons item rest ih =>
    cases item with
    | none => exact held
    | some body => exact ih (step s body held)

theorem Stored.storeBody (stored : s.Stored) : (s.storeBody facts body).Stored := by
  obtain same | ⟨number, -, header, absent, result⟩ := storeBody_cases facts s body
  · rwa [same]
  · rw [result]
    have absent := (stored.haveItem_body number).mp absent
    have merged := Sync.mergeInto_spec stored.bodies absent body
    refine ⟨stored.headers, merged.2, stored.numbered, ?_⟩
    intro n
    rw [merged.1]
    by_cases same : n = number
    · intro _ none
      rw [same, ← stored.haveItem_header, header] at none
      cases none
    · rw [Function.update_of_ne same]
      exact stored.covered n

variable (facts items) in
theorem Stored.storeBodies (stored : s.Stored) : (s.storeBodies facts items).2.Stored :=
  storeBodies_keeps (fun _ _ held => held.storeBody) stored

end Bodies

end BlockChainSync

end Etiam
