import Mathlib

/-! # Counting over finitely many agents

How the number of agents in a given condition moves when one of them changes.
-/

namespace Counting

variable {ι α : Type*} [Fintype ι] [DecidableEq ι]

/-- The number of agents whose value satisfies `keep`. -/
def count (keep : α → Prop) [DecidablePred keep] (value : ι → α) : ℕ :=
  (Finset.univ.filter fun i => keep (value i)).card

variable (keep : α → Prop) [DecidablePred keep] (value : ι → α)

omit [DecidableEq ι] in
theorem count_le_card : count keep value ≤ Fintype.card ι :=
  Finset.card_le_univ _

/-- The count splits into one agent and the others. -/
theorem count_eq_erase (i : ι) : count keep value =
    ((Finset.univ.erase i).filter fun j => keep (value j)).card + if keep (value i) then 1 else 0 := by
  unfold count
  conv_lhs => rw [← Finset.insert_erase (Finset.mem_univ i)]
  rw [Finset.filter_insert]
  split_ifs
  · rw [Finset.card_insert_of_notMem (by simp)]
  · rfl

/-- Changing one agent moves the count by that agent alone. -/
theorem count_update (i : ι) (a : α) :
    count keep (Function.update value i a) + (if keep (value i) then 1 else 0) =
      count keep value + if keep a then 1 else 0 := by
  have others : ((Finset.univ.erase i).filter fun j => keep (Function.update value i a j)).card =
      ((Finset.univ.erase i).filter fun j => keep (value j)).card := by
    congr 1
    apply Finset.filter_congr
    intro j member
    rw [Function.update_of_ne (Finset.ne_of_mem_erase member)]
  rw [count_eq_erase keep _ i, count_eq_erase keep value i, others, Function.update_self]
  omega

theorem count_update_of_iff {i : ι} {a : α} (same : keep a ↔ keep (value i)) :
    count keep (Function.update value i a) = count keep value := by
  have moved := count_update keep value i a
  simp only [same] at moved
  omega

theorem count_pos {i : ι} (holds : keep (value i)) : 0 < count keep value := by
  rw [count_eq_erase keep value i, if_pos holds]
  omega

theorem not_of_count_eq_zero (zero : count keep value = 0) (i : ι) : ¬ keep (value i) :=
  fun holds => (count_pos keep value holds).ne' zero

omit [DecidableEq ι] in
theorem exists_of_count_pos (positive : 0 < count keep value) : ∃ i, keep (value i) := by
  obtain ⟨i, member⟩ := Finset.card_pos.mp positive
  exact ⟨i, (Finset.mem_filter.mp member).2⟩

/-- An agent outside the condition leaves room for one more. -/
theorem count_lt_card {i : ι} (fails : ¬ keep (value i)) : count keep value < Fintype.card ι := by
  rw [count_eq_erase keep value i, if_neg fails, Nat.add_zero]
  calc
    _ ≤ (Finset.univ.erase i).card := Finset.card_filter_le _ _
    _ < Fintype.card ι := Finset.card_erase_lt_of_mem (Finset.mem_univ i)

omit [DecidableEq ι] in
/-- A condition that implies another one holds of no more agents. -/
theorem count_mono {β : Type*} {keep : α → Prop} [DecidablePred keep] {keep' : β → Prop}
    [DecidablePred keep'] {value : ι → α} {value' : ι → β}
    (imp : ∀ i, keep (value i) → keep' (value' i)) : count keep value ≤ count keep' value' :=
  Finset.card_le_card (Finset.monotone_filter_right _ fun i _ => imp i)

end Counting
