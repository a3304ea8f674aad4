import GraphBufferPool.Lib.Fuel

/-! # How calls end

`Ends stops P call` says of a call that may fail that it returns a value with the property `P`, or fails for one of
the reasons in `stops`. Consecutive calls and loops compose.
-/

universe u v

/-- The call returns a value with the property, or fails for one of the reasons. -/
def Ends {ε : Type u} {α : Type v} (stops : ε → Prop) (P : α → Prop) : Except ε α → Prop
  | .error stop => stops stop
  | .ok a => P a

namespace Ends

variable {ε : Type u} {α β : Type v} {stops : ε → Prop} {P : α → Prop} {Q : β → Prop}

theorem mono {P' : α → Prop} {call : Except ε α} (ends : Ends stops P call) (weaker : ∀ a, P a → P' a) :
    Ends stops P' call := by
  cases call with
  | error stop => exact ends
  | ok a => exact weaker a ends

/-- The second of two calls runs with the result of the first. -/
theorem bind {call : Except ε α} {next : α → Except ε β} (first : Ends stops P call)
    (second : ∀ a, P a → Ends stops Q (next a)) : Ends stops Q (call >>= next) := by
  cases call with
  | error stop => exact first
  | ok a => exact second a first

/-- The rule for a loop over a range: an invariant of the index that every round keeps. -/
theorem foldlM_range {f : α → ℕ → Except ε α} (I : ℕ → α → Prop) {n : ℕ}
    (round : ∀ k < n, ∀ a, I k a → Ends stops (I (k + 1)) (f a k)) {a : α} (start : I 0 a) :
    Ends stops (I n) ((List.range n).foldlM f a) := by
  induction n with
  | zero => exact start
  | succ n ih =>
    rw [List.range_succ, List.foldlM_append]
    apply (ih fun k below => round k (by omega)).bind
    intro mid here
    rw [List.foldlM_cons]
    exact (round n (Nat.lt_succ_self n) mid here).bind fun _ after => after

end Ends

namespace Fuel

/-- The rule for a loop over a list: an invariant of what is left of the list that every round keeps. -/
theorem Returns.foldlM {ε : Type u} {σ α : Type v} {f : ℕ → σ → α → Except ε σ} (I : List α → σ → Prop)
    (round : ∀ a rest s, I (a :: rest) s → ∃ s', Returns (fun fuel => f fuel s a) s' ∧ I rest s') {list : List α} {s : σ}
    (start : I list s) : ∃ s', Returns (fun fuel => list.foldlM (f fuel) s) s' ∧ I [] s' := by
  induction list generalizing s with
  | nil => exact ⟨s, .const, start⟩
  | cons a rest ih =>
    obtain ⟨mid, first, here⟩ := round a rest s start
    obtain ⟨s', later, after⟩ := ih here
    refine ⟨s', .congr (fun fuel => List.foldlM_cons ..) ?_, after⟩
    exact @Returns.bind _ _ _ _ (fun fuel s => rest.foldlM (f fuel) s) _ _ first later

end Fuel
