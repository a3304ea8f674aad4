import Mathlib

/-! # Ordered probing

A table in which every item lies at some distance behind its home, and the distance grows by at most one from a slot
to the next. From the home of an item to its slot no slot is closer to its own home than the item is there, so a
search may stop at the first slot that is. An item is carried from its home over such slots to the first slot that it
may take, and goes on with the item that it takes the slot from.
-/

namespace RobinHood

open Function

universe u

variable {α : Type u}

/-- Slots with the distances of their items from their homes, negative where a slot is free. -/
structure Table (α : Type u) where
  distance : ℕ → ℤ
  item : ℕ → α
  last : ℕ

namespace Table

/-- The table with an item at a slot. -/
def put (t : Table α) (i : ℕ) (d : ℤ) (x : α) : Table α :=
  ⟨update t.distance i d, update t.item i x, t.last⟩

/-- An item lies in some slot. -/
def Holds (t : Table α) (x : α) : Prop := ∃ i < t.last, 0 ≤ t.distance i ∧ t.item i = x

/-- No item lies in two slots. -/
def Once (t : Table α) : Prop :=
  ∀ i j, i < t.last → j < t.last → 0 ≤ t.distance i → 0 ≤ t.distance j → t.item i = t.item j → i = j

variable {t : Table α} {i : ℕ} {d : ℤ} {x : α}

@[simp] theorem put_last : (t.put i d x).last = t.last := rfl

@[simp] theorem put_distance : (t.put i d x).distance i = d := update_self ..

@[simp] theorem put_item : (t.put i d x).item i = x := update_self ..

theorem put_distance_of_ne {j : ℕ} (apart : j ≠ i) : (t.put i d x).distance j = t.distance j := update_of_ne apart ..

theorem put_item_of_ne {j : ℕ} (apart : j ≠ i) : (t.put i d x).item j = t.item j := update_of_ne apart ..

/-- Before and after it takes a slot, the table and the item that is carried then hold the same items. -/
theorem holds_put_or (below : i < t.last) (taken : 0 ≤ t.distance i) (nonneg : 0 ≤ d) (y : α) :
    (t.put i d x).Holds y ∨ y = t.item i ↔ t.Holds y ∨ y = x := by
  constructor
  · rintro (⟨j, inside, used, rfl⟩ | rfl)
    · rcases eq_or_ne j i with rfl | apart
      · exact Or.inr put_item
      · rw [put_distance_of_ne apart] at used
        rw [put_item_of_ne apart]
        exact Or.inl ⟨j, inside, used, rfl⟩
    · exact Or.inl ⟨i, below, taken, rfl⟩
  · rintro (⟨j, inside, used, rfl⟩ | rfl)
    · rcases eq_or_ne j i with rfl | apart
      · exact Or.inr rfl
      · exact Or.inl ⟨j, inside, by rwa [put_distance_of_ne apart], put_item_of_ne apart⟩
    · exact Or.inl ⟨i, below, by rwa [put_distance], put_item⟩

/-- An item that takes a free slot is added. -/
theorem holds_put_iff (below : i < t.last) (empty : t.distance i < 0) (nonneg : 0 ≤ d) (y : α) :
    (t.put i d x).Holds y ↔ t.Holds y ∨ y = x := by
  constructor
  · rintro ⟨j, inside, used, rfl⟩
    rcases eq_or_ne j i with rfl | apart
    · exact Or.inr put_item
    · rw [put_distance_of_ne apart] at used
      rw [put_item_of_ne apart]
      exact Or.inl ⟨j, inside, used, rfl⟩
  · rintro (⟨j, inside, used, rfl⟩ | rfl)
    · have apart : j ≠ i := by
        rintro rfl
        omega
      exact ⟨j, inside, by rwa [put_distance_of_ne apart], put_item_of_ne apart⟩
    · exact ⟨i, below, by rwa [put_distance], put_item⟩

/-- An item that lies nowhere takes a slot. -/
theorem Once.put (once : t.Once) (fresh : ¬ t.Holds x) : (t.put i d x).Once := by
  intro j k belowJ belowK usedJ usedK same
  rcases eq_or_ne j i with rfl | apartJ
  · rcases eq_or_ne k j with rfl | apartK
    · rfl
    · rw [put_distance_of_ne apartK] at usedK
      rw [put_item, put_item_of_ne apartK] at same
      exact absurd ⟨k, belowK, usedK, same.symm⟩ fresh
  · rw [put_distance_of_ne apartJ] at usedJ
    rw [put_item_of_ne apartJ] at same
    rcases eq_or_ne k i with rfl | apartK
    · rw [put_item] at same
      exact absurd ⟨j, belowJ, usedJ, same⟩ fresh
    · rw [put_distance_of_ne apartK] at usedK
      rw [put_item_of_ne apartK] at same
      exact once j k belowJ belowK usedJ usedK same

/-- The item that lost its slot lies nowhere then. -/
theorem Once.not_holds_put (once : t.Once) (fresh : ¬ t.Holds x) (below : i < t.last) (taken : 0 ≤ t.distance i) :
    ¬ (t.put i d x).Holds (t.item i) := by
  rintro ⟨j, inside, used, same⟩
  rcases eq_or_ne j i with rfl | apart
  · rw [put_item] at same
    exact fresh ⟨j, below, taken, same.symm⟩
  · rw [put_distance_of_ne apart] at used
    rw [put_item_of_ne apart] at same
    exact apart (once j i inside below used taken same)

end Table

/-- The distances are those from the homes, and grow by at most one. -/
structure Ordered (home : α → ℕ) (t : Table α) : Prop where
  free : ∀ i < t.last, -1 ≤ t.distance i
  home : ∀ i < t.last, 0 ≤ t.distance i → home (t.item i) + t.distance i = i
  close : ∀ i, i + 1 < t.last → t.distance (i + 1) ≤ t.distance i + 1

/-- An item has come to a slot, over slots that are not closer to their homes. -/
structure Carried (home : α → ℕ) (t : Table α) (x : α) (i : ℕ) (d : ℤ) : Prop where
  place : home x + d = i
  nonneg : 0 ≤ d
  fits : ∀ j, j + 1 = i → d ≤ t.distance j + 1

variable {home home' : α → ℕ} {t : Table α} {x : α} {i : ℕ} {d : ℤ}

theorem Ordered.congr (ordered : Ordered home t) (same : ∀ x, t.Holds x → home' x = home x) : Ordered home' t where
  free := ordered.free
  home := by
    intro i below used
    rw [same _ ⟨i, below, used, rfl⟩]
    exact ordered.home i below used
  close := ordered.close

/-- Backwards the distance falls by at most one from a slot to the next. -/
theorem Ordered.chain (ordered : Ordered home t) (below : i < t.last) (k : ℕ) (le : k ≤ i) :
    t.distance i - k ≤ t.distance (i - k) := by
  induction k with
  | zero => simp
  | succ k ih =>
    specialize ih (by omega)
    have step := ordered.close (i - (k + 1)) (by omega)
    rw [show i - (k + 1) + 1 = i - k by omega] at step
    push_cast
    omega

/-- The slots from the home of an item to its own slot. -/
theorem Ordered.found (ordered : Ordered home t) (holds : t.Holds x) : ∃ i < t.last, t.item i = x ∧ home x ≤ i ∧
    ∀ j, home x ≤ j → j ≤ i → (j : ℤ) - home x ≤ t.distance j := by
  obtain ⟨i, below, used, rfl⟩ := holds
  have place := ordered.home i below used
  refine ⟨i, below, rfl, by omega, fun j from_home to_slot => ?_⟩
  have chain := ordered.chain below (i - j) (by omega)
  rw [show i - (i - j) = j by omega] at chain
  omega

/-- At its home an item fits. -/
theorem Ordered.carried (ordered : Ordered home t) (below : home x ≤ t.last) : Carried home t x (home x) 0 where
  place := by simp
  nonneg := le_rfl
  fits := by
    intro j next
    have := ordered.free j (by omega)
    omega

/-- A slot that is not closer to its home is passed. -/
theorem Carried.pass (carried : Carried home t x i d) (passes : d ≤ t.distance i) : Carried home t x (i + 1) (d + 1) where
  place := by
    have := carried.place
    push_cast
    omega
  nonneg := by
    have := carried.nonneg
    omega
  fits := by
    intro j next
    obtain rfl : j = i := by omega
    omega

/-- An item takes a slot that is free or closer to its home. -/
theorem Ordered.put (ordered : Ordered home t) (carried : Carried home t x i d) (closer : t.distance i < d) :
    Ordered home (t.put i d x) := by
  have nonneg := carried.nonneg
  constructor
  · intro j below
    rcases eq_or_ne j i with rfl | apart
    · rw [Table.put_distance]
      omega
    · rw [Table.put_distance_of_ne apart]
      exact ordered.free j below
  · intro j below used
    rcases eq_or_ne j i with rfl | apart
    · rw [Table.put_distance, Table.put_item]
      exact carried.place
    · rw [Table.put_distance_of_ne apart] at used ⊢
      rw [Table.put_item_of_ne apart]
      exact ordered.home j below used
  · intro j below
    have close := ordered.close j below
    rcases eq_or_ne (j + 1) i with rfl | after
    · rw [Table.put_distance, Table.put_distance_of_ne (by omega)]
      exact carried.fits j rfl
    · rw [Table.put_distance_of_ne after]
      rcases eq_or_ne j i with rfl | before
      · rw [Table.put_distance]
        omega
      · rwa [Table.put_distance_of_ne before]

/-- The item that lost its slot goes on from there. -/
theorem Carried.swap (carried : Carried home t x i d) (ordered : Ordered home t) (below : i < t.last)
    (used : 0 ≤ t.distance i) (closer : t.distance i < d) :
    Carried home (t.put i d x) (t.item i) (i + 1) (t.distance i + 1) where
  place := by
    have := ordered.home i below used
    push_cast
    omega
  nonneg := by omega
  fits := by
    intro j next
    obtain rfl : j = i := by omega
    rw [Table.put_distance]
    omega

end RobinHood
