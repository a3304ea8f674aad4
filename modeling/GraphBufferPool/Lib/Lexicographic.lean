import Mathlib

/-! # Three-way comparison of two sequences

A comparison that goes through two sequences position by position, in pieces, returns zero while they
agree and stops at the first position where they differ. Pieces are put together here, and the result
for the positions that both sequences have is completed to the lexicographic order of the sequences.
-/

namespace Lexicographic

universe u

variable {α : Type u} {f g f' g' : ℕ → α} {start middle stop : ℕ} {ret : ℤ}

/-- The values at the first positions. -/
def values (f : ℕ → α) (n : ℕ) : List α := (List.range n).map f

@[simp] theorem length_values (f : ℕ → α) (n : ℕ) : (values f n).length = n := by
  simp [values]

theorem getElem_values (f : ℕ → α) {n i : ℕ} (inside : i < (values f n).length) : (values f n)[i] = f i := by
  simp [values]

theorem take_values (f : ℕ → α) {m n : ℕ} (short : m ≤ n) : (values f n).take m = values f m := by
  simp [values, ← List.map_take, List.take_range, Nat.min_eq_left short]

theorem values_congr {n : ℕ} (agree : ∀ i < n, f i = g i) : values f n = values g n := by
  refine List.map_congr_left fun i member => agree i (List.mem_range.mp member)

variable [LinearOrder α]

/-- The result of comparing the positions `[start, stop)`. -/
inductive Verdict (f g : ℕ → α) (start stop : ℕ) : ℤ → Prop
  | same (agree : ∀ i, start ≤ i → i < stop → f i = g i) : Verdict f g start stop 0
  | differ {ret : ℤ} (j : ℕ) (low : start ≤ j) (high : j < stop)
      (agree : ∀ i, start ≤ i → i < j → f i = g i) (sign : ret < 0 ∧ f j < g j ∨ 0 < ret ∧ g j < f j) :
      Verdict f g start stop ret

namespace Verdict

theorem nil (past : stop ≤ start) : Verdict f g start stop 0 :=
  same fun _ low high => absurd (low.trans_lt high) (Nat.not_lt.mpr past)

theorem agree (verdict : Verdict f g start stop 0) : ∀ i, start ≤ i → i < stop → f i = g i := by
  cases verdict with
  | same agree => exact agree
  | differ j low high agree sign => omega

theorem eq_zero (verdict : Verdict f g start stop ret) (agree : ∀ i, start ≤ i → i < stop → f i = g i) :
    ret = 0 := by
  cases verdict with
  | same => rfl
  | differ j low high _ sign =>
    rw [agree j low high] at sign
    rcases sign with ⟨_, less⟩ | ⟨_, less⟩ <;> exact absurd less (lt_irrefl _)

/-- A piece that agrees is followed by the next one. -/
theorem append (first : Verdict f g start middle 0) (rest : Verdict f g middle stop ret)
    (low : start ≤ middle) : Verdict f g start stop ret := by
  have before := first.agree
  cases rest with
  | same agree =>
    refine same fun i above below => ?_
    rcases Nat.lt_or_ge i middle with left | right
    · exact before i above left
    · exact agree i right below
  | differ j after inside agree sign =>
    refine differ j (low.trans after) inside (fun i above below => ?_) sign
    rcases Nat.lt_or_ge i middle with left | right
    · exact before i above left
    · exact agree i right below

/-- A difference in a piece decides. -/
theorem widen (piece : Verdict f g start middle ret) (decided : ret ≠ 0) (inside : middle ≤ stop) :
    Verdict f g start stop ret := by
  cases piece with
  | same => exact absurd rfl decided
  | differ j low high agree sign => exact differ j low (high.trans_le inside) agree sign

theorem swap (verdict : Verdict f g start stop ret) : Verdict g f start stop (-ret) := by
  cases verdict with
  | same agree => exact same fun i low high => (agree i low high).symm
  | differ j low high agree sign =>
    refine differ j low high (fun i above below => (agree i above below).symm) ?_
    rcases sign with ⟨negative, less⟩ | ⟨positive, less⟩
    · exact Or.inr ⟨neg_pos.mpr negative, less⟩
    · exact Or.inl ⟨neg_lt_zero.mpr positive, less⟩

theorem congr (verdict : Verdict f g start stop ret) (left : ∀ i, start ≤ i → i < stop → f i = f' i)
    (right : ∀ i, start ≤ i → i < stop → g i = g' i) : Verdict f' g' start stop ret := by
  cases verdict with
  | same agree =>
    refine same fun i low high => ?_
    rw [← left i low high, ← right i low high, agree i low high]
  | differ j low high agree sign =>
    refine differ j low high (fun i above below => ?_) ?_
    · rw [← left i above (below.trans high), ← right i above (below.trans high), agree i above below]
    · rwa [← left j low high, ← right j low high]

end Verdict

/-- `ret` is negative, zero or positive as `a` is before, equal to or after `b`. -/
structure Orders (ret : ℤ) (a b : List α) : Prop where
  less : ret < 0 ↔ a < b
  equal : ret = 0 ↔ a = b
  greater : 0 < ret ↔ b < a

namespace Orders

variable {a b : List α} {ret' : ℤ}

theorem of_less (negative : ret < 0) (less : a < b) : Orders ret a b :=
  ⟨iff_of_true negative less, iff_of_false negative.ne less.ne, iff_of_false negative.not_gt less.not_gt⟩

theorem of_greater (positive : 0 < ret) (less : b < a) : Orders ret a b :=
  ⟨iff_of_false positive.not_gt less.not_gt, iff_of_false positive.ne' less.ne', iff_of_true positive less⟩

theorem refl (a : List α) : Orders 0 a a := by
  constructor <;> simp

/-- The sequences decide the sign. -/
theorem sign_eq (first : Orders ret a b) (second : Orders ret' a b) : ret.sign = ret'.sign := by
  rcases lt_trichotomy ret 0 with negative | zero | positive
  · rw [Int.sign_eq_neg_one_of_neg negative, Int.sign_eq_neg_one_of_neg (second.less.mpr (first.less.mp negative))]
  · rw [zero, second.equal.mpr (first.equal.mp zero)]
  · rw [Int.sign_eq_one_of_pos positive, Int.sign_eq_one_of_pos (second.greater.mpr (first.greater.mp positive))]

theorem neg (orders : Orders ret a b) : Orders (-ret) b a :=
  ⟨neg_lt_zero.trans orders.greater, neg_eq_zero.trans (orders.equal.trans eq_comm), neg_pos.trans orders.less⟩

end Orders

/-- The first position where they differ orders two sequences. -/
theorem values_lt_of_differ {j m n : ℕ} (left : j < m) (right : j < n) (agree : ∀ i < j, f i = g i)
    (less : f j < g j) : values f m < values g n := by
  refine List.lt_iff_exists.mpr (Or.inr ⟨j, by rwa [length_values], by rwa [length_values],
    fun i below => ?_, ?_⟩)
  · rw [getElem_values, getElem_values, agree i below]
  · rwa [getElem_values, getElem_values]

/-- A proper prefix is smaller. -/
theorem values_lt_of_longer {m n : ℕ} (agree : ∀ i < m, f i = g i) (short : m < n) :
    values f m < values g n := by
  refine List.lt_iff_exists.mpr (Or.inl ⟨?_, by rwa [length_values, length_values]⟩)
  rw [length_values, take_values g short.le, values_congr agree]

/-- Completed by the difference of the lengths, the verdict on the positions that both sequences have
orders the sequences. -/
theorem Verdict.orders {m n : ℕ} {diff : ℤ} (verdict : Verdict f g 0 (min m n) ret)
    (diff_eq : diff = m - n) : Orders (if ret = 0 then diff else ret) (values f m) (values g n) := by
  cases verdict with
  | same agree =>
    have agree (i : ℕ) (below : i < min m n) : f i = g i := agree i (Nat.zero_le i) below
    rw [if_pos rfl, diff_eq]
    rcases lt_trichotomy m n with less | rfl | greater
    · rw [min_eq_left less.le] at agree
      exact Orders.of_less (by omega) (values_lt_of_longer agree less)
    · rw [min_self] at agree
      rw [sub_self, values_congr agree]
      exact Orders.refl _
    · rw [min_eq_right greater.le] at agree
      exact Orders.of_greater (by omega) (values_lt_of_longer (fun i below => (agree i below).symm) greater)
  | differ j low high agree sign =>
    obtain ⟨left, right⟩ := lt_min_iff.mp high
    have agree (i : ℕ) (below : i < j) : f i = g i := agree i (Nat.zero_le i) below
    rcases sign with ⟨negative, less⟩ | ⟨positive, less⟩
    · rw [if_neg negative.ne]
      exact Orders.of_less negative (values_lt_of_differ left right agree less)
    · rw [if_neg positive.ne']
      exact Orders.of_greater positive
        (values_lt_of_differ right left (fun i below => (agree i below).symm) less)

end Lexicographic
