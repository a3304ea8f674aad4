import Mathlib

/-! # One-point updates -/

namespace Function

variable {ι α β : Type*} [DecidableEq ι] {f : ι → α} {i : ι} {a c : α}

/-- Moving one point changes which points have no other value than its old and its new one. -/
theorem update_eq_iff_of_ne (old : f i ≠ c) (new : a ≠ c) (j : ι) : update f i a j = c ↔ f j = c := by
  by_cases here : j = i
  · subst here
    rw [update_self]
    exact ⟨fun same => absurd same new, fun same => absurd same old⟩
  · rw [update_of_ne here]

/-- The points with a value that the new one is not are the old ones away from the moved point. -/
theorem update_eq_iff_ne_and (new : a ≠ c) (j : ι) : update f i a j = c ↔ j ≠ i ∧ f j = c := by
  by_cases here : j = i
  · subst here
    simp [new]
  · simp [here]

/-- A property of the points that the old and the new value agree on is unchanged. -/
theorem apply_update_of_iff {p : α → Prop} (same : p a ↔ p (f i)) (j : ι) : p (update f i a j) ↔ p (f j) := by
  by_cases here : j = i
  · subst here
    rw [update_self, same]
  · rw [update_of_ne here]

end Function
