import Mathlib

/-! # Conditions on the past of a call

Where a condition on a call refers to the calls before it, a list of calls meets it throughout if each of
them meets it with the calls before. Runs of a step function grow at the end, and so do these
conditions.
-/

namespace History

universe u v w

variable {α : Type u} {σ : Type v} {ε : Type w}

/-- Every call meets the condition with the calls before it. -/
def Throughout (P : List α → α → Prop) (calls : List α) : Prop :=
  ∀ before call after, calls = before ++ call :: after → P before call

variable {P Q : List α → α → Prop} {calls : List α} {call : α}

theorem throughout_nil : Throughout P [] := by
  intro before call after same
  simp at same

/-- A list of calls is split at its last call, or before it. -/
theorem snoc_split {before after : List α} {here : α} (same : calls ++ [call] = before ++ here :: after) :
    before = calls ∧ here = call ∨ ∃ rest, calls = before ++ here :: rest := by
  rcases List.eq_nil_or_concat after with rfl | ⟨rest, last, rfl⟩
  · obtain ⟨earlier, latest⟩ := List.append_inj' same rfl
    exact Or.inl ⟨earlier.symm, (List.cons.inj latest).1.symm⟩
  · rw [List.concat_eq_append, ← List.cons_append, ← List.append_assoc] at same
    exact Or.inr ⟨rest, (List.append_inj' same rfl).1⟩

theorem throughout_snoc : Throughout P (calls ++ [call]) ↔ Throughout P calls ∧ P calls call := by
  constructor
  · intro all
    refine ⟨fun before here after same => ?_, all calls call [] rfl⟩
    exact all before here (after ++ [call]) (by rw [same, List.append_assoc, List.cons_append])
  · rintro ⟨earlier, last⟩ before here after same
    rcases snoc_split same with ⟨rfl, rfl⟩ | ⟨rest, split⟩
    · exact last
    · exact earlier before here rest split

theorem Throughout.left {later : List α} (all : Throughout P (calls ++ later)) : Throughout P calls :=
  fun before call after same =>
    all before call (after ++ later) (by rw [same, List.append_assoc, List.cons_append])

theorem Throughout.mono (all : Throughout P calls) (weaker : ∀ before call, P before call → Q before call) :
    Throughout Q calls :=
  fun before call after same => weaker before call (all before call after same)

/-- A run whose calls return exactly where they meet a condition. -/
theorem run_or_stop {step : σ → α → Except ε σ} {start : σ} {Inv : List α → σ → Prop}
    (initial : Inv [] start) (next : ∀ calls s call, Inv calls s → P calls call →
      (Q calls call ∧ ∃ s', step s call = .ok s' ∧ Inv (calls ++ [call]) s') ∨
        ¬ Q calls call ∧ ∃ stop, step s call = .error stop) (allowed : Throughout P calls) :
    (Throughout Q calls ∧ ∃ s, calls.foldlM step start = .ok s ∧ Inv calls s) ∨
      ¬ Throughout Q calls ∧ ∃ stop, calls.foldlM step start = .error stop := by
  induction calls using List.reverseRecOn with
  | nil => exact Or.inl ⟨throughout_nil, start, rfl, initial⟩
  | append_singleton calls call ih =>
    obtain ⟨earlier, last⟩ := throughout_snoc.mp allowed
    rw [throughout_snoc, List.foldlM_append]
    rcases ih earlier with ⟨met, s, ran, inv⟩ | ⟨broken, stop, ran⟩
    · rw [ran]
      have single : [call].foldlM step s = step s call := by
        rw [List.foldlM_cons]
        exact bind_pure (step s call)
      rcases next calls s call inv last with ⟨here, s', moved, after⟩ | ⟨not, stop, moved⟩
      · exact Or.inl ⟨⟨met, here⟩, s', single.trans moved, after⟩
      · exact Or.inr ⟨fun both => not both.2, stop, single.trans moved⟩
    · rw [ran]
      exact Or.inr ⟨fun both => broken both.1, stop, rfl⟩

end History
