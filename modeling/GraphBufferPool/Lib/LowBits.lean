import Mathlib

/-! # Classes of numbers by their low bits

A selection of a class for every number such that two numbers have the same class exactly when they
agree in as many low bits as the class looks at. A class is split by letting it look at one bit more and giving
the numbers with that bit a class of their own.
-/

universe u

namespace LowBits

variable {ι : Type u}

/-- Each class is that of the numbers which agree with any of them in its low bits. -/
def Classes (select : ℕ → ι) (depth : ι → ℕ) : Prop :=
  ∀ i j, select i = select j ↔ i % 2 ^ depth (select i) = j % 2 ^ depth (select i)

theorem mod_succ_iff (i j d : ℕ) :
    i % 2 ^ (d + 1) = j % 2 ^ (d + 1) ↔ i % 2 ^ d = j % 2 ^ d ∧ i.testBit d = j.testBit d := by
  constructor
  · intro same
    refine ⟨?_, ?_⟩
    · rw [← Nat.mod_mod_of_dvd i (pow_dvd_pow 2 d.le_succ), same, Nat.mod_mod_of_dvd j (pow_dvd_pow 2 d.le_succ)]
    · have bit := congrArg (Nat.testBit · d) same
      simpa using bit
  · rintro ⟨low, high⟩
    apply Nat.eq_of_testBit_eq
    intro k
    rw [Nat.testBit_mod_two_pow, Nat.testBit_mod_two_pow]
    rcases Nat.lt_trichotomy k d with less | rfl | more
    · have bit := congrArg (Nat.testBit · k) low
      simp only [Nat.testBit_mod_two_pow, less, decide_true, Bool.true_and] at bit
      rw [bit]
    · rw [high]
    · have outside : ¬ k < d + 1 := by omega
      simp [outside]

/-- A class that looks at no more than `g` bits does not see the others. -/
theorem Classes.select_mod {select : ℕ → ι} {depth : ι → ℕ} (classes : Classes select depth) {g : ℕ}
    (shallow : ∀ i, depth (select i) ≤ g) (i : ℕ) : select (i % 2 ^ g) = select i := by
  refine ((classes i (i % 2 ^ g)).mpr ?_).symm
  rw [Nat.mod_mod_of_dvd _ (pow_dvd_pow 2 (shallow i))]

section split

variable [DecidableEq ι] {select : ℕ → ι} {depth depth' : ι → ℕ} {old new : ι} {d i : ℕ}

/-- The numbers of the class `old` with bit `d` go to the class `new`. -/
def splitAt (select : ℕ → ι) (old new : ι) (d i : ℕ) : ι := if select i = old ∧ i.testBit d = true then new else select i

theorem splitAt_old (here : select i = old) (clear : i.testBit d = false) : splitAt select old new d i = old := by
  rw [splitAt, if_neg (by simp [clear]), here]

theorem splitAt_new (here : select i = old) (set : i.testBit d = true) : splitAt select old new d i = new :=
  if_pos ⟨here, set⟩

theorem splitAt_other (other : select i ≠ old) : splitAt select old new d i = select i :=
  if_neg fun both => other both.1

/-- The classes after the split. -/
theorem Classes.split (classes : Classes select depth) (at_ : depth old = d) (fresh : ∀ i, select i ≠ new)
    (inOld : depth' old = d + 1) (inNew : depth' new = d + 1) (others : ∀ e, e ≠ old → e ≠ new → depth' e = depth e)
    (some : ∃ i, select i = old) : Classes (splitAt select old new d) depth' := by
  have apart : old ≠ new := by
    obtain ⟨i, here⟩ := some
    exact here ▸ fresh i
  intro i j
  by_cases here : select i = old
  · have deeper : depth' (splitAt select old new d i) = d + 1 := by
      cases bit : i.testBit d with
      | false => rw [splitAt_old here bit, inOld]
      | true => rw [splitAt_new here bit, inNew]
    have low : select j = old ↔ i % 2 ^ d = j % 2 ^ d := by
      have both := classes i j
      rw [here, at_] at both
      exact eq_comm.trans both
    rw [deeper, mod_succ_iff, ← low]
    by_cases there : select j = old
    · cases bit : i.testBit d <;> cases bit' : j.testBit d
      · rw [splitAt_old here bit, splitAt_old there bit']
        simp [there]
      · rw [splitAt_old here bit, splitAt_new there bit']
        simp [apart]
      · rw [splitAt_new here bit, splitAt_old there bit']
        simp [apart.symm]
      · rw [splitAt_new here bit, splitAt_new there bit']
        simp [there]
    · refine iff_of_false ?_ fun both => there both.1
      rw [splitAt_other there]
      cases bit : i.testBit d with
      | false =>
        rw [splitAt_old here bit]
        exact Ne.symm there
      | true =>
        rw [splitAt_new here bit]
        exact (fresh j).symm
  · rw [splitAt_other here, others _ here (fresh i), ← classes i j]
    by_cases there : select j = old
    · refine iff_of_false ?_ fun same => here (same.trans there)
      cases bit : j.testBit d with
      | false =>
        rw [splitAt_old there bit]
        exact here
      | true =>
        rw [splitAt_new there bit]
        exact fresh i
    · rw [splitAt_other there]

/-- Both halves of a split class have numbers, and no class is lost. -/
theorem Classes.exists_splitAt (classes : Classes select depth) (at_ : depth old = d) (some : ∃ i, select i = old)
    (e : ι) : (∃ i, splitAt select old new d i = e) ↔ e = new ∨ ∃ i, select i = e := by
  obtain ⟨i, here⟩ := some
  -- The numbers below 2^(d+1) that agree with one of the class in its low bits.
  have low : select (i % 2 ^ d) = old := by
    rw [← here]
    refine ((classes i _).mpr ?_).symm
    rw [here, at_, Nat.mod_mod]
  have high : select (i % 2 ^ d + 2 ^ d) = old := by
    rw [← here]
    refine ((classes i _).mpr ?_).symm
    rw [here, at_, Nat.add_mod_right, Nat.mod_mod]
  have clear : (i % 2 ^ d).testBit d = false := by simp
  have set : (i % 2 ^ d + 2 ^ d).testBit d = true := by
    rw [Nat.add_comm, Nat.testBit_two_pow_add_eq, clear]
    rfl
  constructor
  · rintro ⟨j, rfl⟩
    by_cases both : select j = old ∧ j.testBit d = true
    · exact Or.inl (splitAt_new both.1 both.2)
    · exact Or.inr ⟨j, (if_neg both).symm⟩
  · rintro (rfl | ⟨j, rfl⟩)
    · exact ⟨_, splitAt_new high set⟩
    · by_cases there : select j = old
      · exact ⟨_, (splitAt_old low clear).trans there.symm⟩
      · exact ⟨j, splitAt_other there⟩

end split

end LowBits
