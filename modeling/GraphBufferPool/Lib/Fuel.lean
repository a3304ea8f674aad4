import Mathlib

/-! # Calls that take a fuel

A loop of a program is a function of its fuel. `Returns call a` says that the loop ends with `a`
once its fuel is large enough; such a result is unique, and results of consecutive calls compose.
-/

namespace Fuel

universe u v

variable {ε : Type u} {α : Type v} {β : Type v}

/-- The call ends with `a` whenever its fuel is large enough. -/
def Returns (call : ℕ → Except ε α) (a : α) : Prop := ∃ n, ∀ fuel ≥ n, call fuel = .ok a

namespace Returns

/-- A call returns one value. -/
theorem unique {call : ℕ → Except ε α} {a b : α} (first : Returns call a) (second : Returns call b) :
    a = b := by
  obtain ⟨n, first⟩ := first
  obtain ⟨k, second⟩ := second
  have same := (first (max n k) (le_max_left ..)).symm.trans (second (max n k) (le_max_right ..))
  exact Except.ok.inj same

/-- A call that never looks at its fuel. -/
theorem const {a : α} : Returns (fun _ => (.ok a : Except ε α)) a := ⟨0, fun _ _ => rfl⟩

theorem congr {call call' : ℕ → Except ε α} {a : α} (same : ∀ fuel, call fuel = call' fuel)
    (ran : Returns call' a) : Returns call a := by
  obtain ⟨n, ran⟩ := ran
  exact ⟨n, fun fuel enough => (same fuel).trans (ran fuel enough)⟩

/-- The fuel spent by the first rounds does not matter. -/
theorem shift (rounds : ℕ) {call call' : ℕ → Except ε α} {a : α}
    (same : ∀ fuel, call (fuel + rounds) = call' fuel) : Returns call a ↔ Returns call' a := by
  constructor
  · rintro ⟨n, ran⟩
    exact ⟨n, fun fuel enough => (same fuel).symm.trans (ran _ (by omega))⟩
  · rintro ⟨n, ran⟩
    refine ⟨n + rounds, fun fuel enough => ?_⟩
    obtain ⟨rest, rfl⟩ : ∃ rest, fuel = rest + rounds := ⟨fuel - rounds, by omega⟩
    exact (same rest).trans (ran rest (by omega))

/-- The second of two calls runs with the result of the first. -/
theorem bind {call : ℕ → Except ε α} {next : ℕ → α → Except ε β} {a : α} {b : β}
    (first : Returns call a) (second : Returns (fun fuel => next fuel a) b) :
    Returns (fun fuel => call fuel >>= next fuel) b := by
  obtain ⟨n, first⟩ := first
  obtain ⟨k, second⟩ := second
  refine ⟨max n k, fun fuel enough => ?_⟩
  change (call fuel >>= next fuel) = .ok b
  rw [first fuel (le_trans (le_max_left ..) enough)]
  exact second fuel (le_trans (le_max_right ..) enough)

/-- The rule for a loop over a range: an invariant of the index that every round keeps holds when the
loop ends. -/
theorem foldlM_range {σ : Type v} {f : ℕ → σ → ℕ → Except ε σ} (I : ℕ → σ → Prop) {n : ℕ}
    (round : ∀ k < n, ∀ s, I k s → ∃ s', Returns (fun fuel => f fuel s k) s' ∧ I (k + 1) s') {s : σ}
    (start : I 0 s) : ∃ s', Returns (fun fuel => (List.range n).foldlM (f fuel) s) s' ∧ I n s' := by
  induction n with
  | zero => exact ⟨s, .const, start⟩
  | succ n ih =>
    obtain ⟨mid, ran, here⟩ := ih fun k below => round k (by omega)
    obtain ⟨s', last, after⟩ := round n (Nat.lt_succ_self n) mid here
    refine ⟨s', .congr (fun fuel => ?_) (@bind _ _ _ _ (fun fuel s => f fuel s n) _ _ ran last), after⟩
    simp only [List.range_succ, List.foldlM_append, List.foldlM_cons, List.foldlM_nil, bind_pure]

/-- A call that returns does so without fuel where fuel does not matter. -/
theorem of_const {x : Except ε α} {a : α} (ran : Returns (fun _ => x) a) : x = .ok a := by
  obtain ⟨n, ran⟩ := ran
  exact ran n le_rfl

/-- A loop that fails with every fuel never returns. -/
theorem not_of_error {call : ℕ → Except ε α} {stop : ε} (failed : ∀ fuel, call fuel = .error stop)
    (a : α) : ¬ Returns call a := by
  rintro ⟨n, ran⟩
  have := (failed n).symm.trans (ran n le_rfl)
  cases this

end Returns

/-- More fuel never changes a result. -/
def Stable (call : ℕ → Except ε α) : Prop := ∀ fuel a, call fuel = .ok a → call (fuel + 1) = .ok a

namespace Stable

/-- A call that ended with some fuel returns. -/
theorem returns {call : ℕ → Except ε α} {fuel : ℕ} {a : α} (stable : Stable call)
    (ran : call fuel = .ok a) : Returns call a := by
  refine ⟨fuel, fun more enough => ?_⟩
  obtain ⟨rest, rfl⟩ := Nat.exists_eq_add_of_le enough
  induction rest with
  | zero => exact ran
  | succ rest ih => exact stable _ _ (ih (Nat.le_add_right ..))

theorem const (x : Except ε α) : Stable fun _ => x := fun _ _ ran => ran

theorem bind {call : ℕ → Except ε α} {next : ℕ → α → Except ε β} (first : Stable call)
    (second : ∀ a, Stable fun fuel => next fuel a) : Stable fun fuel => call fuel >>= next fuel := by
  intro fuel b ran
  change (call fuel >>= next fuel) = .ok b at ran
  change (call (fuel + 1) >>= next (fuel + 1)) = .ok b
  cases returned : call fuel with
  | error stop =>
    rw [returned] at ran
    cases ran
  | ok a =>
    rw [returned] at ran
    rw [first fuel a returned]
    exact second a fuel b ran

end Stable

end Fuel
