import Mathlib

/-! # Constants and integer helpers

The values of `config.h` and `utils.h` that the modelled functions read, and the page a caller
names. Handles, page ids and sizes are natural numbers; every narrowing the source performs
(`fpage_id_type`, the bit-fields of a page-table entry) is an explicit remainder where it happens.
-/

namespace Gbp

/-- `PAGE_SIZE_MEMORY`, and `PAGE_SIZE_FILE`, which `config.h` sets to it. -/
abbrev pageSize : ℕ := 4096

/-- The number of values of `fpage_id_type`, a 32-bit unsigned integer. -/
abbrev fpageIdRange : ℕ := 2 ^ 32

/-- `gbp::ceil`. -/
def ceil (val modVal : ℕ) : ℕ := val / modVal + if val % modVal = 0 then 0 else 1

/-- A file page as callers name it: a file handle and a page id inside the file. -/
structure Page where
  fd : ℕ
  fpageId : ℕ
deriving DecidableEq, Repr

/-- Rounding up covers exactly the indices whose block starts below the value. -/
theorem lt_ceil_iff {val modVal index : ℕ} (positive : 0 < modVal) :
    index < ceil val modVal ↔ index * modVal < val := by
  have split := Nat.div_add_mod val modVal
  have remainder := Nat.mod_lt val positive
  rw [Nat.mul_comm] at split
  unfold ceil
  constructor
  · intro below
    rcases Nat.lt_or_ge index (val / modVal) with small | large
    · have := Nat.mul_le_mul_right modVal (Nat.succ_le_of_lt small)
      rw [Nat.succ_mul] at this
      omega
    · split_ifs at below with exact
      · omega
      · obtain rfl : index = val / modVal := by omega
        omega
  · intro below
    have quotient : index ≤ val / modVal := (Nat.le_div_iff_mul_le positive).mpr below.le
    split_ifs with exact
    · rcases Nat.lt_or_eq_of_le quotient with less | rfl
      · omega
      · omega
    · omega

theorem ceil_le_iff {val modVal bound : ℕ} (positive : 0 < modVal) :
    ceil val modVal ≤ bound ↔ val ≤ bound * modVal := by
  rw [← Nat.not_lt, ← Nat.not_lt, lt_ceil_iff positive]

end Gbp
