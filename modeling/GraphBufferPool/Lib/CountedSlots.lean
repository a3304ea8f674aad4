import Mathlib

/-! # Counted slots

Slots in front of counted resources: a slot owns one reference to the resource it holds and counts the
uses that rely on that reference. `Accounts` says that the counts are right; a slot is filled with
another resource only while no use relies on it. `held` collects the references the slots own.
-/

namespace CountedSlots

variable {ι α : Type*} [DecidableEq ι]

/-- Every slot counts the live uses that go through it, and holds the resource of each of them. -/
structure Accounts (count : ι → ℕ) (holder : ι → Option α) (live : Multiset (ι × α)) : Prop where
  counted : ∀ i, count i = live.countP fun use => use.1 = i
  held : ∀ use ∈ live, holder use.1 = some use.2

private theorem countP_cons_same (i : ι) (a : α) (live : Multiset (ι × α)) :
    ((i, a) ::ₘ live).countP (fun use => use.1 = i) = live.countP (fun use => use.1 = i) + 1 := by
  simp

private theorem countP_cons_other {i j : ι} (apart : j ≠ i) (a : α) (live : Multiset (ι × α)) :
    ((i, a) ::ₘ live).countP (fun use => use.1 = j) = live.countP (fun use => use.1 = j) := by
  simp [Ne.symm apart]

namespace Accounts

variable {count count' : ι → ℕ} {holder holder' : ι → Option α} {live : Multiset (ι × α)} {i : ι} {a : α}

theorem empty : Accounts (fun _ : ι => 0) holder (0 : Multiset (ι × α)) where
  counted _ := by simp
  held := by simp

theorem count_pos (accounts : Accounts count holder live) (use : (i, a) ∈ live) : 0 < count i := by
  rw [accounts.counted]
  exact Multiset.countP_pos.mpr ⟨_, use, rfl⟩

/-- No use relies on a slot that is empty or not counted. -/
theorem not_mem_of_idle (accounts : Accounts count holder live) (idle : holder i = none ∨ count i = 0) :
    (i, a) ∉ live := by
  intro use
  have held := accounts.held _ use
  have positive := accounts.count_pos use
  rcases idle with none | zero
  · rw [none] at held
    cases held
  · omega

theorem count_of_idle (accounts : Accounts count holder live) (idle : holder i = none ∨ count i = 0) :
    live.countP (fun use => use.1 = i) = 0 := by
  rw [Multiset.countP_eq_zero]
  rintro ⟨j, b⟩ use rfl
  exact accounts.not_mem_of_idle idle use

/-- A use through a slot that holds its resource. -/
theorem hit (accounts : Accounts count holder live) (here : holder i = some a) (more : count' i = count i + 1)
    (others : ∀ j ≠ i, count' j = count j) : Accounts count' holder ((i, a) ::ₘ live) where
  counted j := by
    by_cases same : j = i
    · subst same
      rw [more, countP_cons_same, accounts.counted]
    · rw [others j same, countP_cons_other same, accounts.counted]
  held use member := by
    rcases Multiset.mem_cons.mp member with rfl | member
    · exact here
    · exact accounts.held use member

/-- An idle slot is filled for a first use. -/
theorem fill (accounts : Accounts count holder live) (idle : holder i = none ∨ count i = 0)
    (one : count' i = 1) (stored : holder' i = some a)
    (others : ∀ j ≠ i, count' j = count j ∧ holder' j = holder j) :
    Accounts count' holder' ((i, a) ::ₘ live) where
  counted j := by
    by_cases same : j = i
    · subst same
      rw [one, countP_cons_same, accounts.count_of_idle idle]
    · rw [(others j same).1, countP_cons_other same, accounts.counted]
  held := by
    rintro ⟨j, b⟩ member
    rcases Multiset.mem_cons.mp member with same | earlier
    · cases same
      exact stored
    · have apart : j ≠ i := by
        rintro rfl
        exact accounts.not_mem_of_idle idle earlier
      exact (others j apart).2.trans (accounts.held _ earlier)

/-- A use ends. -/
theorem drop [DecidableEq α] (accounts : Accounts count holder live) (use : (i, a) ∈ live)
    (less : count' i = count i - 1) (others : ∀ j ≠ i, count' j = count j) :
    Accounts count' holder (live.erase (i, a)) where
  counted j := by
    have split := congrArg (Multiset.countP fun use => use.1 = j) (Multiset.cons_erase use)
    by_cases same : j = i
    · subst same
      rw [countP_cons_same, ← accounts.counted] at split
      omega
    · rw [countP_cons_other same, ← accounts.counted] at split
      rw [others j same, split]
  held use member := accounts.held use (Multiset.mem_of_mem_erase member)

end Accounts

/-- The reference that a slot owns. -/
def reference (holder : Option α) : Multiset α := holder.elim 0 fun a => {a}

@[simp] theorem reference_none : reference (none : Option α) = 0 := rfl

@[simp] theorem reference_some (a : α) : reference (some a) = {a} := rfl

/-- The references that the slots of `S` own. -/
def held (S : Finset ι) (holder : ι → Option α) : Multiset α := ∑ i ∈ S, reference (holder i)

variable {S : Finset ι} {holder holder' : ι → Option α} {i : ι}

omit [DecidableEq ι] in
theorem mem_held {a : α} : a ∈ held S holder ↔ ∃ i ∈ S, holder i = some a := by
  rw [held, Multiset.mem_sum]
  refine exists_congr fun i => and_congr_right fun _ => ?_
  cases holder i with
  | none => simp
  | some b => simp [eq_comm]

/-- One slot changes its resource. -/
theorem held_replace (member : i ∈ S) (others : ∀ j ≠ i, holder' j = holder j) :
    held S holder' + reference (holder i) = held S holder + reference (holder' i) := by
  have rest : ∑ j ∈ S.erase i, reference (holder' j) = ∑ j ∈ S.erase i, reference (holder j) :=
    Finset.sum_congr rfl fun j inside => by rw [others j (Finset.ne_of_mem_erase inside)]
  rw [held, held, ← Finset.add_sum_erase S _ member, ← Finset.add_sum_erase S _ member, rest]
  abel

end CountedSlots
