import GraphBufferPool.Lib.Runs

/-! # Computations that agree

Two computations agree if both fail for the same reason, or both return and their results are related. Agreement goes
through consecutive calls, so that a program and its abstraction are compared call by call, and the runs of
two systems whose steps agree have the same properties.
-/

universe u v w x

/-- The same failure, or related results. -/
inductive Agree {ε : Type u} {α : Type v} {β : Type w} (R : α → β → Prop) : Except ε α → Except ε β → Prop
  | error (stop : ε) : Agree R (.error stop) (.error stop)
  | ok {a : α} {b : β} (related : R a b) : Agree R (.ok a) (.ok b)

namespace Agree

variable {ε : Type u} {α α' : Type v} {β β' : Type w} {R R' : α → β → Prop} {S : α' → β' → Prop}
  {call : Except ε α} {call' : Except ε β}

theorem mono (agree : Agree R call call') (weaker : ∀ a b, R a b → R' a b) : Agree R' call call' := by
  cases agree with
  | error stop => exact .error stop
  | ok related => exact .ok (weaker _ _ related)

/-- A computation agrees with itself. -/
theorem same (call : Except ε α) : Agree Eq call call := by
  cases call with
  | error stop => exact .error stop
  | ok a => exact .ok rfl

/-- The second of two calls runs with related results of the first. -/
theorem bind {next : α → Except ε α'} {next' : β → Except ε β'} (first : Agree R call call')
    (second : ∀ a b, R a b → Agree S (next a) (next' b)) : Agree S (call >>= next) (call' >>= next') := by
  cases first with
  | error stop => exact .error stop
  | ok related => exact second _ _ related

/-- What one computation returns is related to what the other returns. -/
theorem right {a : α} (agree : Agree R call call') (ran : call = .ok a) : ∃ b, call' = .ok b ∧ R a b := by
  subst ran
  cases agree with
  | ok related => exact ⟨_, rfl, related⟩

theorem left {b : β} (agree : Agree R call call') (ran : call' = .ok b) : ∃ a, call = .ok a ∧ R a b := by
  subst ran
  cases agree with
  | ok related => exact ⟨_, rfl, related⟩

theorem error_iff (agree : Agree R call call') (stop : ε) : call = .error stop ↔ call' = .error stop := by
  cases agree with
  | error other => exact (Except.error.injEq ..).to_iff.trans (Except.error.injEq ..).to_iff.symm
  | ok related => exact iff_of_false nofun nofun

end Agree

namespace Runs

variable {ε : Type u} {σ : Type v} {τ : Type w} {α : Type x} {step : σ → α → Except ε σ} {step' : τ → α → Except ε τ}
  {R : σ → τ → Prop} {s : σ} {t : τ} {calls : List α}

/-- A property of the states is one of the runs of either system. -/
theorem always_congr {P : σ → Prop} {P' : τ → Prop} (steps : ∀ s t a, R s t → Agree R (step s a) (step' t a))
    (same : ∀ s t, R s t → (P s ↔ P' t)) (related : R s t) :
    Always step P s calls ↔ Always step' P' t calls := by
  induction calls generalizing s t with
  | nil => exact same s t related
  | cons a rest ih =>
    refine and_congr (same s t related) ⟨fun all t' ran => ?_, fun all s' ran => ?_⟩
    · obtain ⟨s', moved, next⟩ := (steps s t a related).left ran
      exact (ih next).mp (all s' moved)
    · obtain ⟨t', moved, next⟩ := (steps s t a related).right ran
      exact (ih next).mpr (all t' moved)

/-- So is a condition on the calls, where they are allowed. -/
theorem each_congr {Allowed Q : σ → α → Prop} {Q' : τ → α → Prop}
    (steps : ∀ s t a, R s t → Agree R (step s a) (step' t a))
    (same : ∀ s t a, R s t → Allowed s a → (Q s a ↔ Q' t a)) (related : R s t) (allowed : Each step Allowed s calls) :
    Each step Q s calls ↔ Each step' Q' t calls := by
  induction calls generalizing s t with
  | nil => exact Iff.rfl
  | cons a rest ih =>
    constructor
    · intro each t' ran
      obtain ⟨s', moved, next⟩ := (steps s t a related).left ran
      obtain ⟨here, later⟩ := allowed s' moved
      obtain ⟨met, others⟩ := each s' moved
      exact ⟨(same s t a related here).mp met, (ih next later).mp others⟩
    · intro each s' ran
      obtain ⟨t', moved, next⟩ := (steps s t a related).right ran
      obtain ⟨here, later⟩ := allowed s' ran
      obtain ⟨met, others⟩ := each t' moved
      exact ⟨(same s t a related here).mpr met, (ih next later).mpr others⟩

end Runs
