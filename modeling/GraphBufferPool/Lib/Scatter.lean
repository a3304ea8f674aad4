import Mathlib

/-! # Pieces filled one after another

Consecutive positions are handed out to a list of pieces in order, each with a width of its own. Two
ways to fill the pieces agree when they agree on every piece, and filling from two positions gives the
same exactly when the source repeats itself there.
-/

namespace Scatter

universe u v w

variable {α : Type u} {β : Type v} {γ : Type w}

/-- Every piece is filled from the position where the one before it ends. -/
def scatter (width : α → ℕ) (fill : α → ℕ → β) : List α → ℕ → List β
  | [], _ => []
  | piece :: rest, start => fill piece start :: scatter width fill rest (start + width piece)

/-- The positions that the pieces take up. -/
def extent (width : α → ℕ) (pieces : List α) : ℕ := (pieces.map width).sum

variable {width : α → ℕ} {fill fill' : α → ℕ → β}

@[simp] theorem extent_nil : extent width [] = 0 := rfl

@[simp] theorem extent_cons (piece : α) (rest : List α) :
    extent width (piece :: rest) = width piece + extent width rest := List.sum_cons

theorem extent_append (pieces rest : List α) :
    extent width (pieces ++ rest) = extent width pieces + extent width rest := by
  rw [extent, List.map_append, List.sum_append, extent, extent]

theorem length_scatter (pieces : List α) (start : ℕ) : (scatter width fill pieces start).length = pieces.length := by
  induction pieces generalizing start with
  | nil => rfl
  | cons piece rest ih => rw [scatter, List.length_cons, ih, List.length_cons]

theorem scatter_append (pieces rest : List α) (start : ℕ) : scatter width fill (pieces ++ rest) start =
    scatter width fill pieces start ++ scatter width fill rest (start + extent width pieces) := by
  induction pieces generalizing start with
  | nil => rfl
  | cons piece pieces ih => rw [List.cons_append, scatter, scatter, ih, List.cons_append, extent_cons, add_assoc]

/-- Two ways to fill the pieces that agree up to a limit. -/
theorem scatter_congr {limit : ℕ} (agree : ∀ piece start, start + width piece ≤ limit →
    fill piece start = fill' piece start) (pieces : List α) (start : ℕ)
    (inside : start + extent width pieces ≤ limit) :
    scatter width fill pieces start = scatter width fill' pieces start := by
  induction pieces generalizing start with
  | nil => rfl
  | cons piece rest ih =>
    rw [extent_cons] at inside
    rw [scatter, scatter, agree piece start (by omega), ih _ (by omega)]

/-- Where every piece shows the part of the source that it was filled from, so do all of them together. -/
theorem scatter_eq_iff {source : ℕ → γ} (shows : ∀ piece start other, fill piece start = fill piece other ↔
    ∀ j < width piece, source (start + j) = source (other + j)) (pieces : List α) (start other : ℕ) :
    scatter width fill pieces start = scatter width fill pieces other ↔
      ∀ j < extent width pieces, source (start + j) = source (other + j) := by
  induction pieces generalizing start other with
  | nil => exact iff_of_true rfl fun j impossible => absurd impossible (Nat.not_lt_zero j)
  | cons piece rest ih =>
    rw [scatter, scatter, List.cons.injEq, shows, ih, extent_cons]
    constructor
    · rintro ⟨first, later⟩ j inside
      rcases Nat.lt_or_ge j (width piece) with here | past
      · exact first j here
      · have same := later (j - width piece) (by omega)
        rw [show start + width piece + (j - width piece) = start + j by omega,
          show other + width piece + (j - width piece) = other + j by omega] at same
        exact same
    · intro same
      refine ⟨fun j here => same j (by omega), fun j here => ?_⟩
      rw [add_assoc, add_assoc]
      exact same (width piece + j) (by omega)

end Scatter
