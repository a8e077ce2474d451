import Mathlib.Data.Finset.Max
import Mathlib.Order.WithBot
import Mathlib.Tactic.Linarith

/-!
Walks along an ordered table that move what they visit.

The entries of a table stand in the order of their ranks. A walk visits one entry after another up
to a last one, which it does not visit. It goes on to the entry that came next before the visit,
while the visit itself changes the entry and with it the place where the entry stands. An entry
that is put down further ahead is visited again when the walk gets there.
-/

namespace Etiam.Walk

variable {K V κ : Type} [LinearOrder κ]

/-- One entry comes before another. -/
def Before (rank : K → V → κ) (table : K → Option V) (a b : K) : Prop :=
  ∃ v w, table a = some v ∧ table b = some w ∧ rank a v < rank b w

/-- One entry comes right before another. -/
structure Next (rank : K → V → κ) (table : K → Option V) (a b : K) : Prop where
  before : Before rank table a b
  between : ∀ c, Before rank table a c → ¬ Before rank table c b

/-- The table with one entry changed. -/
def set [DecidableEq K] (table : K → Option V) (a : K) (v : V) : K → Option V :=
  fun b => if b = a then some v else table b

/-- A walk from an entry to the last one, from the table before it to the table after it, on which
no visit fails. -/
inductive Walks [DecidableEq K] (rank : K → V → κ) (visit : V → Option V) (last : K) :
    K → (K → Option V) → (K → Option V) → Prop
  | done (table : K → Option V) : Walks rank visit last last table table
  | step {a b : K} {v w : V} {table after : K → Option V} (going : a ≠ last)
      (found : table a = some v) (next : Next rank table a b) (visited : visit v = some w)
      (rest : Walks rank visit last b (set table a w) after) :
      Walks rank visit last a table after

section Order

variable {rank : K → V → κ} {table : K → Option V} {a b c : K}

theorem Before.irrefl : ¬ Before rank table a a := by
  rintro ⟨v, w, found, again, lt⟩
  rw [found, Option.some.injEq] at again
  subst again
  exact lt_irrefl _ lt

theorem Before.trans (first : Before rank table a b) (second : Before rank table b c) :
    Before rank table a c := by
  obtain ⟨v, w, foundA, foundB, lt⟩ := first
  obtain ⟨w', x, againB, foundC, lt'⟩ := second
  rw [foundB, Option.some.injEq] at againB
  subst againB
  exact ⟨v, x, foundA, foundC, lt.trans lt'⟩

theorem before_total (different : ∀ a b v w, rank a v = rank b w → a = b) (apart : a ≠ b)
    (presentA : table a ≠ none) (presentB : table b ≠ none) :
    Before rank table a b ∨ Before rank table b a := by
  obtain ⟨v, foundA⟩ := Option.ne_none_iff_exists'.mp presentA
  obtain ⟨w, foundB⟩ := Option.ne_none_iff_exists'.mp presentB
  rcases lt_trichotomy (rank a v) (rank b w) with lt | same | gt
  · exact .inl ⟨v, w, foundA, foundB, lt⟩
  · exact absurd (different a b v w same) apart
  · exact .inr ⟨w, v, foundB, foundA, gt⟩

theorem Before.present_left (before : Before rank table a b) : table a ≠ none := by
  obtain ⟨v, w, found, -⟩ := before
  rw [found]
  exact Option.some_ne_none v

theorem Before.present_right (before : Before rank table a b) : table b ≠ none := by
  obtain ⟨v, w, -, found, -⟩ := before
  rw [found]
  exact Option.some_ne_none w

theorem Next.unique (different : ∀ a b v w, rank a v = rank b w → a = b)
    (first : Next rank table a b) (second : Next rank table a c) : b = c := by
  by_contra apart
  rcases before_total different apart first.before.present_right
      second.before.present_right with before | before
  · exact second.between b first.before before
  · exact first.between c second.before before

theorem exists_next {keys : Finset K} (finite : ∀ c, table c ≠ none → c ∈ keys)
    (before : Before rank table a b) : ∃ c, Next rank table a c := by
  classical
  -- The first of all entries that come after.
  have some_after : (keys.filter (Before rank table a)).Nonempty :=
    ⟨b, Finset.mem_filter.mpr ⟨finite b before.present_right, before⟩⟩
  let place : K → WithBot κ := fun c => (table c).map (rank c)
  obtain ⟨c, member, least⟩ := Finset.exists_min_image _ place some_after
  refine ⟨c, (Finset.mem_filter.mp member).2, fun x after sooner => ?_⟩
  have le : place c ≤ place x :=
    least x (Finset.mem_filter.mpr ⟨finite x after.present_right, after⟩)
  obtain ⟨v, w, foundX, foundC, lt⟩ := sooner
  simp only [place, foundX, foundC, Option.map_some] at le
  exact absurd (WithBot.coe_le_coe.mp le) (not_le.mpr lt)

end Order

section Change

variable [DecidableEq K] {rank : K → V → κ} {table : K → Option V} {a b c : K} {v : V}

@[simp] theorem set_same : set table a v a = some v := if_pos rfl

theorem set_other (other : b ≠ a) : set table a v b = table b := if_neg other

theorem before_set (left : b ≠ a) (right : c ≠ a) :
    Before rank (set table a v) b c ↔ Before rank table b c := by
  unfold Before
  rw [set_other left, set_other right]

theorem set_eq_self (found : table a = some v) : set table a v = table := by
  funext b
  by_cases same : b = a
  · rw [same, set_same, found]
  · exact set_other same

end Change

section Walk

variable (rank : K → V → κ) (visit : V → Option V) (start : K → Option V) (last : K)

/-- How the table stands when a walk has come to an entry: what comes before the last one is as it
was or visited, all of it that is already behind is visited, and the rest is untouched. -/
structure Underway (table : K → Option V) (a : K) : Prop where
  others : ∀ c, ¬ Before rank start c last → table c = start c
  visited : ∀ c, Before rank start c last →
    table c = start c ∨ table c = (start c).bind visit
  behind : ∀ c, Before rank table c a →
    Before rank start c last ∧ table c = (start c).bind visit
  ahead : a = last ∨ Before rank table a last

variable {rank visit start last} {table : K → Option V} {a b : K}

theorem Underway.done (underway : Underway rank visit start last table last) (c : K) :
    (Before rank start c last → table c = (start c).bind visit) ∧
    (¬ Before rank start c last → table c = start c) := by
  refine ⟨fun before => ?_, underway.others c⟩
  rcases underway.visited c before with same | done
  · -- An entry that was not touched still comes before the last one, so it is behind.
    have still : Before rank table c last := by
      obtain ⟨v, w, foundC, foundLast, lt⟩ := before
      refine ⟨v, w, same.trans foundC, ?_, lt⟩
      rw [underway.others last Before.irrefl]
      exact foundLast
    exact (underway.behind c still).2
  · exact done

theorem Underway.before_start (underway : Underway rank visit start last table a)
    (going : a ≠ last) : Before rank start a last := by
  have ahead := underway.ahead.resolve_left going
  by_contra later
  obtain ⟨v, w, foundA, foundLast, lt⟩ := ahead
  rw [underway.others a later] at foundA
  rw [underway.others last Before.irrefl] at foundLast
  exact later ⟨v, w, foundA, foundLast, lt⟩

/-- Visiting twice is visiting once, so a visit leaves what the first visit makes of the entry. -/
theorem Underway.visit_eq (underway : Underway rank visit start last table a) (going : a ≠ last)
    (twice : ∀ c v, Before rank start c last → start c = some v →
      ∃ w, visit v = some w ∧ visit w = some w)
    {v : V} (found : table a = some v) :
    ∃ w, visit v = some w ∧ (start a).bind visit = some w := by
  have before := underway.before_start going
  obtain ⟨u, was⟩ := Option.ne_none_iff_exists'.mp before.present_left
  obtain ⟨w, once, again⟩ := twice a u before was
  refine ⟨w, ?_, by rw [was, Option.bind_some, once]⟩
  rcases underway.visited a before with same | done
  · rw [same, was, Option.some.injEq] at found
    rw [← found, once]
  · rw [found, was, Option.bind_some, once, Option.some.injEq] at done
    rw [done, again]

variable [DecidableEq K]

variable (different : ∀ a b v w, rank a v = rank b w → a = b)

include different

theorem Underway.step (underway : Underway rank visit start last table a) (going : a ≠ last) {w : V}
    (made : (start a).bind visit = some w) (next : Next rank table a b) :
    Underway rank visit start last (set table a w) b := by
  have before := underway.before_start going
  have ahead := underway.ahead.resolve_left going
  have forward : b ≠ a := by
    rintro rfl
    exact Before.irrefl next.before
  refine ⟨fun c later => ?_, fun c early => ?_, fun c sooner => ?_, ?_⟩
  · have other : c ≠ a := by
      rintro rfl
      exact later before
    rw [set_other other, underway.others c later]
  · by_cases same : c = a
    · rw [same, set_same]
      exact .inr made.symm
    · rw [set_other same]
      exact underway.visited c early
  · by_cases same : c = a
    · rw [same, set_same]
      exact ⟨before, made.symm⟩
    · -- Whatever else is behind the next entry was behind the visited one.
      rw [before_set same forward] at sooner
      rw [set_other same]
      rcases before_total different same sooner.present_left next.before.present_left with
        old | new
      · exact underway.behind c old
      · exact absurd sooner (next.between c new)
  · by_cases arrived : b = last
    · exact .inl arrived
    · rw [before_set forward (Ne.symm going)]
      refine .inr ((before_total different arrived next.before.present_right
        ahead.present_right).resolve_right fun beyond => ?_)
      exact next.between last ahead beyond

variable (twice : ∀ c v, Before rank start c last → start c = some v →
  ∃ w, visit v = some w ∧ visit w = some w)

include twice

theorem Underway.walks {keys : Finset K} (finite : ∀ c, start c ≠ none → c ∈ keys)
    (underway : Underway rank visit start last table a) :
    ∃ after, Walks rank visit last a table after ∧
      Underway rank visit start last after last := by
  classical
  -- Every step visits an entry for the first time, or leaves the table and gets further ahead.
  obtain ⟨open_, counted⟩ : ∃ n, (keys.filter fun c =>
      table c ≠ (start c).bind visit).card = n := ⟨_, rfl⟩
  induction open_ using Nat.strong_induction_on generalizing table a with
  | _ open_ fresh =>
    obtain ⟨left, counted'⟩ : ∃ n, (keys.filter (Before rank table a)).card = n := ⟨_, rfl⟩
    induction left using Nat.strong_induction_on generalizing a with
    | _ left further =>
      by_cases going : a = last
      · subst going
        exact ⟨table, .done table, underway⟩
      · have ahead := underway.ahead.resolve_left going
        have present : ∀ c, table c ≠ none → c ∈ keys := by
          intro c there
          refine finite c fun absent => there ?_
          by_cases early : Before rank start c last
          · exact absurd absent early.present_left
          · rw [underway.others c early, absent]
        obtain ⟨v, found⟩ := Option.ne_none_iff_exists'.mp ahead.present_left
        obtain ⟨b, next⟩ := exists_next present ahead
        obtain ⟨w, visited, made⟩ := underway.visit_eq going twice found
        have step := underway.step different going made next
        by_cases again : table a = (start a).bind visit
        · -- The entry was visited before, so the table stays.
          have same : set table a w = table := set_eq_self (again.trans made)
          rw [same] at step
          have fewer : (keys.filter (Before rank table b)).card < left := by
            rw [← counted']
            refine Finset.card_lt_card (Finset.ssubset_iff_of_subset ?_ |>.mpr ⟨b, ?_, ?_⟩)
            · intro c member
              obtain ⟨listed, after⟩ := Finset.mem_filter.mp member
              exact Finset.mem_filter.mpr ⟨listed, next.before.trans after⟩
            · exact Finset.mem_filter.mpr
                ⟨present b next.before.present_right, next.before⟩
            · exact fun member => Before.irrefl (Finset.mem_filter.mp member).2
          obtain ⟨after, walks, ends⟩ := further _ fewer step rfl
          exact ⟨after, .step going found next visited (same.symm ▸ walks), ends⟩
        · have fewer : (keys.filter fun c =>
              set table a w c ≠ (start c).bind visit).card < open_ := by
            rw [← counted]
            refine Finset.card_lt_card (Finset.ssubset_iff_of_subset ?_ |>.mpr ⟨a, ?_, ?_⟩)
            · intro c member
              obtain ⟨listed, missed⟩ := Finset.mem_filter.mp member
              refine Finset.mem_filter.mpr ⟨listed, ?_⟩
              by_cases same : c = a
              · rwa [same]
              · rwa [set_other same] at missed
            · exact Finset.mem_filter.mpr ⟨present a ahead.present_left, again⟩
            · intro member
              refine (Finset.mem_filter.mp member).2 ?_
              rw [set_same, made]
          obtain ⟨after, walks, ends⟩ := fresh _ fewer step rfl
          exact ⟨after, .step going found next visited walks, ends⟩

/-- A walk from the first entry of a finite table comes to its end. It has then visited exactly
what came before the last entry, as if all of that had been visited at once. -/
theorem exists_walks {keys : Finset K} {first : K} (finite : ∀ c, start c ≠ none → c ∈ keys)
    (nothing : ∀ c, ¬ Before rank start c first)
    (ahead : first = last ∨ Before rank start first last) :
    ∃ after, Walks rank visit last first start after ∧ ∀ c,
      (Before rank start c last → after c = (start c).bind visit) ∧
      (¬ Before rank start c last → after c = start c) := by
  have underway : Underway rank visit start last start first :=
    ⟨fun _ _ => rfl, fun _ _ => .inl rfl, fun c behind => absurd behind (nothing c), ahead⟩
  obtain ⟨after, walks, ends⟩ := underway.walks different twice finite
  exact ⟨after, walks, ends.done⟩

end Walk

end Etiam.Walk
