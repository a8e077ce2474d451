import Mathlib

/-! Programs that change a state and may fail: sequencing, loops, relations kept on every path, and
programs that run alike on related states. -/

namespace Etiam

namespace Exec

variable {ε σ τ α β : Type}

/-- The state in which a program stops, by returning or by failing. -/
def final : EStateM.Result ε σ α → σ
  | .ok _ s => s
  | .error _ s => s

/-- The exception that a program stopped with. -/
def raised : EStateM.Result ε σ α → Option ε
  | .ok _ _ => none
  | .error e _ => some e

/-- Whether a program returned. -/
def Returned : EStateM.Result ε σ α → Prop
  | .ok _ _ => True
  | .error _ _ => False

@[simp] theorem final_ok (a : α) (s : σ) : final (.ok a s : EStateM.Result ε σ α) = s := rfl

@[simp] theorem final_error (e : ε) (s : σ) : final (.error e s : EStateM.Result ε σ α) = s := rfl

@[simp] theorem returned_ok (a : α) (s : σ) : Returned (.ok a s : EStateM.Result ε σ α) := trivial

@[simp] theorem not_returned_error (e : ε) (s : σ) :
    ¬ Returned (.error e s : EStateM.Result ε σ α) := id

@[simp] theorem run_pure (a : α) (s : σ) : (pure a : EStateM ε σ α).run s = .ok a s := rfl

@[simp] theorem run_throw (e : ε) (s : σ) : (throw e : EStateM ε σ α).run s = .error e s := rfl

@[simp] theorem run_get (s : σ) : (get : EStateM ε σ σ).run s = .ok s s := rfl

@[simp] theorem run_modify (f : σ → σ) (s : σ) :
    (modify f : EStateM ε σ PUnit).run s = .ok PUnit.unit (f s) := rfl

variable {e : ε} {x : EStateM ε σ α} {f : α → EStateM ε σ β} {s t : σ} {a : α}

theorem raised_eq_some {r : EStateM.Result ε σ α} :
    raised r = some e ↔ ∃ s, r = .error e s := by
  cases r with
  | ok a s => simp [raised]
  | error e' s => simp [raised]

theorem bind_ok (first : x.run s = .ok a t) : (x >>= f).run s = (f a).run t := by
  simp only [EStateM.run] at first ⊢
  simp only [bind, EStateM.bind, first]

theorem bind_error (first : x.run s = .error e t) : (x >>= f).run s = .error e t := by
  simp only [EStateM.run] at first ⊢
  simp only [bind, EStateM.bind, first]

theorem run_get_bind (f : σ → EStateM ε σ β) (s : σ) :
    (get >>= f).run s = (f s).run s := rfl

theorem run_modify_bind (f : σ → σ) (g : PUnit → EStateM ε σ β) (s : σ) :
    (modify f >>= g).run s = (g PUnit.unit).run (f s) := rfl

theorem bind_eq_ok {b : β} :
    (x >>= f).run s = .ok b t ↔ ∃ a m, x.run s = .ok a m ∧ (f a).run m = .ok b t := by
  cases first : x.run s with
  | ok a m => simp [bind_ok first]
  | error e m => simp [bind_error first]

/-- A sequence fails in its first part, or in the second after the first has returned. -/
theorem bind_eq_error : (x >>= f).run s = .error e t ↔
    x.run s = .error e t ∨ ∃ a m, x.run s = .ok a m ∧ (f a).run m = .error e t := by
  cases first : x.run s with
  | ok a m => simp [bind_ok first]
  | error e m => simp [bind_error first]

/-- What only changes the result of a program leaves the state it stops in. -/
theorem final_bind_pure (g : α → β) :
    final ((x >>= fun a => pure (g a)).run s) = final (x.run s) := by
  cases ran : x.run s with
  | ok a m => rw [bind_ok ran, run_pure, final_ok, final_ok]
  | error e m => rw [bind_error ran, final_error, final_error]

theorem tryCatch_ok {handler : ε → EStateM ε σ α}
    (ran : x.run s = .ok a t) : (tryCatch x handler).run s = .ok a t := by
  simp only [EStateM.run] at ran ⊢
  simp [MonadExcept.tryCatch, tryCatchThe, MonadExceptOf.tryCatch, EStateM.tryCatch, ran]

theorem tryCatch_error {handler : ε → EStateM ε σ α}
    (ran : x.run s = .error e t) : (tryCatch x handler).run s = (handler e).run t := by
  simp only [EStateM.run] at ran ⊢
  simp [MonadExcept.tryCatch, tryCatchThe, MonadExceptOf.tryCatch, EStateM.tryCatch, ran,
    EStateM.Backtrackable.restore, EStateM.dummyRestore]

/-- From a state with one property, every path of a program ends in a state with another. -/
def Ensures (P : σ → Prop) (x : EStateM ε σ α) (Q : σ → Prop) : Prop :=
  ∀ s, P s → Q (final (x.run s))

namespace Ensures

variable {P Q S : σ → Prop}

/-- A sequence passes through what its first part ensures, where it may also stop. -/
theorem bind {x : EStateM ε σ α} {f : α → EStateM ε σ β} (first : Ensures P x Q)
    (second : ∀ a, Ensures Q (f a) S) (stops : ∀ s, Q s → S s) : Ensures P (x >>= f) S := by
  intro s start
  have middle := first s start
  cases ran : x.run s with
  | ok a t =>
    rw [ran] at middle
    rw [bind_ok ran]
    exact second a t middle
  | error e t =>
    rw [ran] at middle
    rw [bind_error ran]
    exact stops t middle

theorem tryCatch {x : EStateM ε σ α} {handler : ε → EStateM ε σ α} (body : Ensures P x Q)
    (handled : ∀ e, Ensures Q (handler e) Q) : Ensures P (MonadExcept.tryCatch x handler) Q := by
  intro s start
  have ended := body s start
  cases ran : x.run s with
  | ok a t =>
    rw [ran] at ended
    rw [tryCatch_ok ran]
    exact ended
  | error e t =>
    rw [ran] at ended
    rw [tryCatch_error ran]
    exact handled e t ended

end Ensures

/-- Every path of a program, failing ones included, stays within a relation. -/
def Within (R : σ → σ → Prop) (x : EStateM ε σ α) : Prop := ∀ s, R s (final (x.run s))

namespace Within

variable {R : σ → σ → Prop}

variable {x : EStateM ε σ α}

theorem of_ok (within : Within R x) {s t : σ} {a : α} (ran : x.run s = .ok a t) : R s t := by
  have reached := within s
  rwa [ran] at reached

theorem pure (refl : ∀ s, R s s) (a : α) : Within R (Pure.pure a : EStateM ε σ α) :=
  fun s => refl s

theorem throw (refl : ∀ s, R s s) (e : ε) : Within R (MonadExcept.throw e : EStateM ε σ α) :=
  fun s => refl s

theorem get (refl : ∀ s, R s s) : Within R (MonadState.get : EStateM ε σ σ) :=
  fun s => refl s

theorem bind (trans : ∀ r s t, R r s → R s t → R r t)
    {f : α → EStateM ε σ β} (first : Within R x) (second : ∀ a, Within R (f a)) :
    Within R (x >>= f) := by
  intro s
  have start : Ensures (· = s) x (R s) := fun _ same => same ▸ first s
  exact start.bind (fun a t middle => trans s t _ middle (second a t)) (fun _ ended => ended) s rfl

theorem get_bind {f : σ → EStateM ε σ β} (rest : ∀ s, R s (final ((f s).run s))) :
    Within R (MonadState.get >>= f) := rest

theorem tryCatch (trans : ∀ r s t, R r s → R s t → R r t)
    {handler : ε → EStateM ε σ α} (body : Within R x) (handled : ∀ e, Within R (handler e)) :
    Within R (MonadExcept.tryCatch x handler) := by
  intro s
  have start : Ensures (· = s) x (R s) := fun _ same => same ▸ body s
  exact start.tryCatch (fun e t failed => trans s t _ failed (handled e t)) s rfl

theorem forM (refl : ∀ s, R s s) (trans : ∀ r s t, R r s → R s t → R r t) {xs : List α}
    {f : α → EStateM ε σ PUnit} (body : ∀ a ∈ xs, Within R (f a)) : Within R (xs.forM f) := by
  induction xs with
  | nil => exact pure refl PUnit.unit
  | cons a rest ih =>
    change Within R (f a >>= fun _ => rest.forM f)
    exact bind trans (body a List.mem_cons_self)
      fun _ => ih fun b member => body b (List.mem_cons_of_mem a member)

theorem mapM (refl : ∀ s, R s s) (trans : ∀ r s t, R r s → R s t → R r t) {xs : List α}
    {f : α → EStateM ε σ β} (body : ∀ a ∈ xs, Within R (f a)) : Within R (xs.mapM f) := by
  induction xs with
  | nil => exact pure refl []
  | cons a rest ih =>
    rw [List.mapM_cons]
    refine bind trans (body a List.mem_cons_self) fun _ => bind trans (ih ?_) fun _ => pure refl _
    exact fun b member => body b (List.mem_cons_of_mem a member)

end Within

/-- A program never fails in the given way. -/
def Avoids (e : ε) (x : EStateM ε σ α) : Prop := ∀ s t, x.run s ≠ .error e t

namespace Avoids

variable {e : ε}

theorem pure (a : α) : Avoids e (Pure.pure a : EStateM ε σ α) := fun _ _ => nofun

theorem get : Avoids e (MonadState.get : EStateM ε σ σ) := fun _ _ => nofun

theorem throw {other : ε} (different : other ≠ e) :
    Avoids e (MonadExcept.throw other : EStateM ε σ α) := by
  intro s t same
  cases same
  exact different rfl

variable {x : EStateM ε σ α} {f : α → EStateM ε σ β}

theorem bind (first : Avoids e x) (second : ∀ a, Avoids e (f a)) : Avoids e (x >>= f) := by
  intro s t failed
  rcases Exec.bind_eq_error.mp failed with failed | ⟨a, m, -, failed⟩
  · exact first s t failed
  · exact second a m t failed

/-- A sequence that fails in a way its first part avoids has come past it. -/
theorem bind_eq_error {s t : σ} (first : Avoids e x) (failed : (x >>= f).run s = .error e t) :
    ∃ a m, x.run s = .ok a m ∧ (f a).run m = .error e t :=
  (Exec.bind_eq_error.mp failed).resolve_left (first s t)

theorem forM {xs : List α} {f : α → EStateM ε σ PUnit} (body : ∀ a ∈ xs, Avoids e (f a)) :
    Avoids e (xs.forM f) := by
  induction xs with
  | nil => exact pure PUnit.unit
  | cons a rest ih =>
    change Avoids e (f a >>= fun _ => rest.forM f)
    exact bind (body a List.mem_cons_self)
      fun _ => ih fun b member => body b (List.mem_cons_of_mem a member)

theorem mapM {xs : List α} (body : ∀ a ∈ xs, Avoids e (f a)) :
    Avoids e (xs.mapM f) := by
  induction xs with
  | nil => exact pure []
  | cons a rest ih =>
    rw [List.mapM_cons]
    refine bind (body a List.mem_cons_self) fun _ => bind (ih ?_) fun _ => pure _
    exact fun b member => body b (List.mem_cons_of_mem a member)

theorem ite {p : Prop} [Decidable p] {y : EStateM ε σ α} (yes : Avoids e x)
    (no : Avoids e y) : Avoids e (if p then x else y) := by
  split
  · exact yes
  · exact no

end Avoids

@[simp] theorem run_forM_nil (f : α → EStateM ε σ PUnit) (s : σ) :
    (([] : List α).forM f).run s = .ok PUnit.unit s := rfl

theorem forM_cons (f : α → EStateM ε σ PUnit) (a : α) (rest : List α) :
    (a :: rest).forM f = f a >>= fun _ => rest.forM f := rfl

variable {f : α → EStateM ε σ PUnit} {x : EStateM ε τ α}

theorem forM_cons_eq_ok {rest : List α} {u : PUnit} : ((a :: rest).forM f).run s = .ok u t ↔
      ∃ m, (f a).run s = .ok PUnit.unit m ∧ (rest.forM f).run m = .ok u t := by
  rw [forM_cons, bind_eq_ok]
  constructor
  · rintro ⟨_, m, first, second⟩
    exact ⟨m, first, second⟩
  · rintro ⟨m, first, second⟩
    exact ⟨PUnit.unit, m, first, second⟩

theorem forM_keeps {xs : List α} {I : σ → Prop}
    (turn : ∀ a ∈ xs, ∀ s t u, I s → (f a).run s = .ok u t → I t) {u : PUnit}
    (start : I s) (ran : (xs.forM f).run s = .ok u t) : I t := by
  induction xs generalizing s with
  | nil =>
    cases ran
    exact start
  | cons a rest ih =>
    obtain ⟨m, first, second⟩ := forM_cons_eq_ok.mp ran
    exact ih (fun b member => turn b (List.mem_cons_of_mem a member))
      (turn a List.mem_cons_self s m PUnit.unit start first) second

theorem forM_idle {xs : List α} (turn : ∀ a ∈ xs, (f a).run s = .ok PUnit.unit s) :
    (xs.forM f).run s = .ok PUnit.unit s := by
  induction xs with
  | nil => rfl
  | cons a rest ih =>
    rw [forM_cons, bind_ok (turn a List.mem_cons_self)]
    exact ih fun b member => turn b (List.mem_cons_of_mem a member)

/-- Run a program on one part of a state. -/
def zoom (get : σ → τ) (set : τ → σ → σ) (x : EStateM ε τ α) : EStateM ε σ α := fun s =>
  match x.run (get s) with
  | .ok a t => .ok a (set t s)
  | .error e t => .error e (set t s)

variable {get : σ → τ} {set : τ → σ → σ}

theorem zoom_ok {t : τ}
    (ran : x.run (get s) = .ok a t) : (zoom get set x).run s = .ok a (set t s) := by
  simp only [EStateM.run] at ran ⊢
  simp only [zoom, EStateM.run, ran]

theorem zoom_error {t : τ}
    (ran : x.run (get s) = .error e t) : (zoom get set x).run s = .error e (set t s) := by
  simp only [EStateM.run] at ran ⊢
  simp only [zoom, EStateM.run, ran]

theorem zoom_eq_ok :
    (zoom get set x).run s = .ok a t ↔ ∃ m, x.run (get s) = .ok a m ∧ t = set m s := by
  cases ran : x.run (get s) with
  | ok b m =>
    rw [zoom_ok ran]
    constructor
    · intro same
      cases same
      exact ⟨m, rfl, rfl⟩
    · rintro ⟨m', same, rfl⟩
      cases same
      rfl
  | error e m =>
    rw [zoom_error ran]
    simp

/-- A program on a part stops with the part that the program stops with. -/
theorem final_zoom :
    final ((zoom get set x).run s) = set (final (x.run (get s))) s := by
  cases ran : x.run (get s) with
  | ok a m => rw [zoom_ok ran, final_ok, final_ok]
  | error e m => rw [zoom_error ran, final_error, final_error]

theorem Avoids.zoom (part : Avoids e x) : Avoids e (Exec.zoom get set x) := by
  intro s t
  cases ran : x.run (get s) with
  | ok a m =>
    rw [zoom_ok ran]
    exact nofun
  | error e' m =>
    rw [zoom_error ran]
    intro same
    cases same
    exact part (get s) m ran

theorem Within.zoom {R : σ → σ → Prop}
    (writes : ∀ s, R s (set (final (x.run (get s))) s)) : Within R (Exec.zoom get set x) :=
  fun s => final_zoom ▸ writes s

end Exec

namespace Exec

variable {ε σ τ α β : Type}

/-- Two programs returned the same value or failed with the same error, in related states. -/
def Alike (S : σ → τ → Prop) : EStateM.Result ε σ α → EStateM.Result ε τ α → Prop
  | .ok a s, .ok b t => a = b ∧ S s t
  | .error e s, .error f t => e = f ∧ S s t
  | _, _ => False

/-- From related states, two programs run alike. -/
def Simulates (S : σ → τ → Prop) (x : EStateM ε σ α) (y : EStateM ε τ α) : Prop :=
  ∀ s t, S s t → Alike S (x.run s) (y.run t)

namespace Simulates

variable {S : σ → τ → Prop}

theorem pure (a : α) : Simulates S (Pure.pure a : EStateM ε σ α) (Pure.pure a) :=
  fun _ _ related => ⟨rfl, related⟩

theorem throw (e : ε) : Simulates S (MonadExcept.throw e : EStateM ε σ α) (MonadExcept.throw e) :=
  fun _ _ related => ⟨rfl, related⟩

theorem bind {x : EStateM ε σ α} {y : EStateM ε τ α} {f : α → EStateM ε σ β}
    {g : α → EStateM ε τ β} (first : Simulates S x y) (second : ∀ a, Simulates S (f a) (g a)) :
    Simulates S (x >>= f) (y >>= g) := by
  intro s t related
  have middle := first s t related
  -- Either both first parts fail, which ends the sequences, or both go on with one value.
  cases ran : x.run s with
  | ok a m =>
    cases ran' : y.run t with
    | ok b n =>
      rw [ran, ran'] at middle
      obtain ⟨rfl, related'⟩ := middle
      rw [bind_ok ran, bind_ok ran']
      exact second a m n related'
    | error e n =>
      rw [ran, ran'] at middle
      exact middle.elim
  | error e m =>
    cases ran' : y.run t with
    | ok b n =>
      rw [ran, ran'] at middle
      exact middle.elim
    | error f n =>
      rw [ran, ran'] at middle
      rw [bind_error ran, bind_error ran']
      exact middle

theorem get_bind {f : σ → EStateM ε σ β} {g : τ → EStateM ε τ β}
    (rest : ∀ s t, S s t → Alike S ((f s).run s) ((g t).run t)) :
    Simulates S (get >>= f) (get >>= g) := rest

theorem forM {xs : List α} {f : α → EStateM ε σ PUnit} {g : α → EStateM ε τ PUnit}
    (turn : ∀ a ∈ xs, Simulates S (f a) (g a)) : Simulates S (xs.forM f) (xs.forM g) := by
  induction xs with
  | nil => exact pure PUnit.unit
  | cons a rest ih =>
    rw [forM_cons, forM_cons]
    exact bind (turn a List.mem_cons_self)
      fun _ => ih fun b member => turn b (List.mem_cons_of_mem a member)

end Simulates

section Ends

variable {γ δ : Type} {V : α → β → Prop} {W : γ → δ → Prop} {S T : σ → τ → Prop}

/-- Two programs returned related values or failed with the same error, in related states. -/
inductive Ends (V : α → β → Prop) (S : σ → τ → Prop) :
    EStateM.Result ε σ α → EStateM.Result ε τ β → Prop
  | ok {a b s t} (value : V a b) (related : S s t) : Ends V S (.ok a s) (.ok b t)
  | error (e) {s t} (related : S s t) : Ends V S (.error e s) (.error e t)

/-- Sequences end alike when their first parts do, and go on alike from there. -/
theorem Ends.bind {x : EStateM ε σ α} {y : EStateM ε τ β} {f : α → EStateM ε σ γ}
    {g : β → EStateM ε τ δ} {s : σ} {t : τ} (first : Ends V S (x.run s) (y.run t))
    (second : ∀ {a b s t}, V a b → S s t → Ends W S ((f a).run s) ((g b).run t)) :
    Ends W S ((x >>= f).run s) ((y >>= g).run t) := by
  generalize ran : x.run s = r, ran' : y.run t = q at first
  cases first with
  | ok value related =>
    rw [bind_ok ran, bind_ok ran']
    exact second value related
  | error e related =>
    rw [bind_error ran, bind_error ran']
    exact .error e related

theorem Ends.mono {r : EStateM.Result ε σ α} {q : EStateM.Result ε τ β} (ends : Ends V S r q)
    (weaker : ∀ {s t}, S s t → T s t) : Ends V T r q := by
  cases ends with
  | ok value related => exact .ok value (weaker related)
  | error e related => exact .error e (weaker related)

end Ends

end Exec

end Etiam
