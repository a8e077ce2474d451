import Mathlib

/-! Machines that take one action after another where they can, and what a run of them keeps;
programs that use a machine through a fixed set of operations, and simulation between two. -/

namespace Etiam

namespace Runs

variable {σ τ : Type*} (step : τ → σ → Option σ)

/-- The state after a list of actions, if all of them can be taken. -/
def run : List τ → σ → Option σ
  | [], s => some s
  | a :: rest, s => (step a s).bind (run rest)

/-- A condition holds of every action of a run, in the state where it is taken. -/
def Along (fits : σ → τ → Prop) : List τ → σ → Prop
  | [], _ => True
  | a :: rest, s => fits s a ∧ (step a s).elim True (Along fits rest)

instance instDecidableAlong (fits : σ → τ → Prop) [∀ s a, Decidable (fits s a)] :
    (actions : List τ) → (s : σ) → Decidable (Along step fits actions s)
  | [], _ => .isTrue trivial
  | a :: rest, s =>
    have : Decidable ((step a s).elim True (Along step fits rest)) :=
      match step a s with
      | none => .isTrue trivial
      | some t => instDecidableAlong fits rest t
    inferInstanceAs (Decidable (_ ∧ _))

variable {step} {fits : σ → τ → Prop}

theorem keeps {P : σ → Prop} {actions : List τ} {s t : σ}
    (steps : ∀ (a : τ) (s t : σ), P s → fits s a → step a s = some t → P t)
    (start : P s) (along : Along step fits actions s) (ran : run step actions s = some t) :
    P t := by
  induction actions generalizing s with
  | nil =>
    obtain rfl := Option.some.inj ran
    exact start
  | cons a rest ih =>
    obtain ⟨next, taken, onward⟩ := Option.bind_eq_some_iff.mp ran
    have later : (step a s).elim True (Along step fits rest) := along.2
    rw [taken] at later
    exact ih (steps a s next start along.1 taken) later onward

theorem always {P : σ → Prop} {actions : List τ} {s t : σ}
    (steps : ∀ (a : τ) (s t : σ), P s → step a s = some t → P t) (start : P s)
    (ran : run step actions s = some t) : P t := by
  induction actions generalizing s with
  | nil =>
    obtain rfl := Option.some.inj ran
    exact start
  | cons a rest ih =>
    obtain ⟨next, taken, onward⟩ := Option.bind_eq_some_iff.mp ran
    exact ih (steps a s next start taken) onward

end Runs

/-- A program that calls operations and goes on with their answers. -/
inductive Calls {Op : Type*} (Answer : Op → Type*) (α : Type*) where
  | ret (result : α)
  | call (op : Op) (next : Answer op → Calls Answer α)

namespace Calls

variable {Op : Type*} {Answer : Op → Type*} {α σ τ : Type*}

/-- Run a program on a machine. -/
def run (handle : (op : Op) → σ → Answer op × σ) : Calls Answer α → σ → α × σ
  | .ret result, s => (result, s)
  | .call op next, s => (next (handle op s).1).run handle (handle op s).2

/-- A condition holds of every operation of a run, in the state where it is called. -/
def Along (handle : (op : Op) → σ → Answer op × σ) (ok : σ → Op → Prop) :
    Calls Answer α → σ → Prop
  | .ret _, _ => True
  | .call op next, s => ok s op ∧ (next (handle op s).1).Along handle ok (handle op s).2

/-- Go on with another program. -/
def bind {β : Type*} : Calls Answer α → (α → Calls Answer β) → Calls Answer β
  | .ret result, next => next result
  | .call op go, next => .call op fun answer => (go answer).bind next

instance : Monad (Calls Answer) where
  pure := .ret
  bind := bind

variable {handle : (op : Op) → σ → Answer op × σ} {handle' : (op : Op) → τ → Answer op × τ}
  {ok : σ → Op → Prop} {ok' : τ → Op → Prop}

/-- Machines that answer every operation alike give every program the same result. -/
theorem run_simulates {R : σ → τ → Prop}
    (step : ∀ op s t, R s t → ok s op → ok' t op →
      (handle op s).1 = (handle' op t).1 ∧ R (handle op s).2 (handle' op t).2)
    (program : Calls Answer α) {s : σ} {t : τ} (related : R s t)
    (fine : program.Along handle ok s) (fine' : program.Along handle' ok' t) :
    (program.run handle s).1 = (program.run handle' t).1 ∧
      R (program.run handle s).2 (program.run handle' t).2 := by
  induction program generalizing s t with
  | ret result => exact ⟨rfl, related⟩
  | call op next ih =>
    obtain ⟨here, later⟩ := fine
    obtain ⟨here', later'⟩ := fine'
    obtain ⟨same, related⟩ := step op s t related here here'
    simp only [run]
    rw [← same] at later' ⊢
    exact ih _ related later later'

end Calls

end Etiam
