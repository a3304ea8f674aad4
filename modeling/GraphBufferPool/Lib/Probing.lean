import Mathlib

/-! # Probing

A search goes from slot to slot along a fixed successor. Where items are put into the first free slot behind their
home and never taken out again, a path of taken slots leads from the home of every item to its slot, and stays one.
-/

namespace Probing

universe u

variable {ι : Type u} {next : ι → ι} {taken taken' : ι → Prop} {a b : ι}

/-- A search from `a` comes to `b` over taken slots. -/
inductive Path (next : ι → ι) (taken : ι → Prop) : ι → ι → Prop
  | here (a : ι) : Path next taken a a
  | step {a b : ι} (used : taken a) (rest : Path next taken (next a) b) : Path next taken a b

namespace Path

theorem mono (path : Path next taken a b) (more : ∀ i, taken i → taken' i) : Path next taken' a b := by
  induction path with
  | here a => exact .here a
  | step used _ ih => exact .step (more _ used) ih

/-- The search goes on behind a taken slot. -/
theorem onward (path : Path next taken a b) (used : taken b) : Path next taken a (next b) := by
  induction path with
  | here a => exact .step used (.here _)
  | step first _ ih => exact .step first (ih used)

/-- A search does not go on behind a free slot. -/
theorem eq_of_free (path : Path next taken a b) (free : ¬ taken a) : a = b := by
  cases path with
  | here => rfl
  | step used _ => exact absurd used free

theorem next_of_ne (path : Path next taken a b) (apart : a ≠ b) : taken a ∧ Path next taken (next a) b := by
  cases path with
  | here => exact absurd rfl apart
  | step used rest => exact ⟨used, rest⟩

end Path

/-- A search ends at a free slot, if there is one on its way. -/
theorem exists_path_of_free {n : ℕ} (free : ¬ taken (next^[n] a)) : ∃ b, Path next taken a b ∧ ¬ taken b := by
  induction n generalizing a with
  | zero => exact ⟨a, .here a, free⟩
  | succ n ih =>
    by_cases used : taken a
    · obtain ⟨b, path, free⟩ := ih (by rwa [← Function.iterate_succ_apply])
      exact ⟨b, .step used path, free⟩
    · exact ⟨a, .here a, used⟩

/-- The successor on a ring of `m` slots, from slots outside it too. -/
def succMod (m i : ℕ) : ℕ := (i + 1) % m

theorem succMod_iterate (m i n : ℕ) : (succMod m)^[n + 1] i = (i + n + 1) % m := by
  induction n with
  | zero => rfl
  | succ n ih =>
    rw [Function.iterate_succ_apply', ih, succMod, Nat.mod_add_mod]
    ring_nf

/-- A search on a ring comes to all its slots. -/
theorem exists_iterate_succMod {m : ℕ} (i : ℕ) {j : ℕ} (inside : j < m) : ∃ n, (succMod m)^[n] i = j := by
  refine ⟨j + (m - 1 - i % m) + 1, ?_⟩
  have small := Nat.mod_lt i (Nat.zero_lt_of_lt inside)
  have split := Nat.div_add_mod i m
  rw [succMod_iterate]
  have whole : i + (j + (m - 1 - i % m)) + 1 = j + m * (i / m + 1) := by
    rw [Nat.mul_add]
    omega
  rw [whole, Nat.add_mul_mod_self_left, Nat.mod_eq_of_lt inside]

end Probing
