import Mathlib.Logic.Function.Basic
import Mathlib.Algebra.BigOperators.Fin
import Mathlib.Data.Fintype.BigOperators

/-! Threads that share a memory, taking their steps in any order. -/

namespace Etiam

/-- The program of a thread: one atomic step on the shared and its own memory, none once done. -/
abbrev Program (σ τ : Type*) := σ → τ → Option (σ × τ)

/-- A fixed number of threads over one shared memory. -/
@[ext] structure Pool (n : ℕ) (σ τ : Type*) where
  shared : σ
  threads : Fin n → τ

namespace Pool

variable {n : ℕ} {σ τ : Type*}

/-- The pool after one thread has taken a step. -/
def advance (p : Pool n σ τ) (i : Fin n) (next : σ × τ) : Pool n σ τ where
  shared := next.1
  threads := Function.update p.threads i next.2

/-- One pool is reached from another by an interleaving of so many steps. -/
inductive Interleaves (program : Program σ τ) : ℕ → Pool n σ τ → Pool n σ τ → Prop where
  | refl (p : Pool n σ τ) : Interleaves program 0 p p
  | step {p q : Pool n σ τ} {k : ℕ} (i : Fin n) {next : σ × τ}
      (takes : program p.shared (p.threads i) = some next)
      (rest : Interleaves program k (p.advance i next) q) : Interleaves program (k + 1) p q

/-- Every thread is done, so the pool can be joined. -/
def Joined (program : Program σ τ) (p : Pool n σ τ) : Prop :=
  ∀ i, program p.shared (p.threads i) = none

variable {program : Program σ τ} {p q : Pool n σ τ} {k : ℕ}

theorem Interleaves.keeps {Inv : Pool n σ τ → Prop} (run : Interleaves program k p q)
    (step : ∀ (p : Pool n σ τ) (i : Fin n) (next : σ × τ), Inv p →
      program p.shared (p.threads i) = some next → Inv (p.advance i next))
    (start : Inv p) : Inv q := by
  induction run with
  | refl => exact start
  | step i takes _ ih => exact ih (step _ i _ start takes)

/-- Where every step brings a measure down, no interleaving is longer than it. -/
theorem Interleaves.bounded (measure : Pool n σ τ → ℕ) (run : Interleaves program k p q)
    (falls : ∀ (p : Pool n σ τ) (i : Fin n) (next : σ × τ),
      program p.shared (p.threads i) = some next → measure (p.advance i next) < measure p) :
    k + measure q ≤ measure p := by
  induction run with
  | refl => omega
  | step i takes _ ih =>
    have smaller := falls _ i _ takes
    omega

/-- Where every step brings a measure down, some interleaving ends with all threads done. -/
theorem exists_joined (measure : Pool n σ τ → ℕ)
    (falls : ∀ (p : Pool n σ τ) (i : Fin n) (next : σ × τ),
      program p.shared (p.threads i) = some next → measure (p.advance i next) < measure p)
    (p : Pool n σ τ) : ∃ k q, Interleaves program k p q ∧ Joined program q := by
  -- Any thread that is not done may go next; the measure bounds how often that happens.
  induction size : measure p using Nat.strong_induction_on generalizing p with
  | _ size ih =>
    by_cases joined : Joined program p
    · exact ⟨0, p, .refl p, joined⟩
    · simp only [Joined, not_forall] at joined
      obtain ⟨i, unfinished⟩ := joined
      obtain ⟨next, takes⟩ := Option.ne_none_iff_exists'.mp unfinished
      obtain ⟨k, q, run, done⟩ := ih _ (size ▸ falls p i next takes) _ rfl
      exact ⟨k + 1, q, .step i takes run, done⟩

/-- A step changes the sum of a weight over the threads by what its own thread changes. -/
theorem sum_advance (weight : τ → ℕ) (p : Pool n σ τ) (i : Fin n) (next : σ × τ) :
    (∑ j, weight ((p.advance i next).threads j)) + weight (p.threads i) =
      (∑ j, weight (p.threads j)) + weight next.2 := by
  classical
  simp only [advance]
  rw [← Finset.add_sum_erase _ _ (Finset.mem_univ i),
    ← Finset.add_sum_erase _ (fun j => weight (p.threads j)) (Finset.mem_univ i)]
  have others : ∑ j ∈ Finset.univ.erase i, weight (Function.update p.threads i next.2 j) =
      ∑ j ∈ Finset.univ.erase i, weight (p.threads j) :=
    Finset.sum_congr rfl fun j member => by
      rw [Function.update_of_ne (Finset.ne_of_mem_erase member)]
  rw [others, Function.update_self]
  omega

end Pool

end Etiam
