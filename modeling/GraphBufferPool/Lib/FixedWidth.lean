import Mathlib.Data.Nat.Digits.Defs
import Mathlib.Tactic.IntervalCases
import Mathlib.Tactic.Ring

/-! # Text of a fixed width

Numbers are written with a given number of decimal digits, leading zeros included, and a pattern gives for each place of a
text the character that it has to be, or asks for a digit.
-/

namespace FixedWidth

/-- The last `width` decimal digits of `n`. -/
def decimal : ℕ → ℕ → List Char
  | 0, _ => []
  | width + 1, n => decimal width (n / 10) ++ [Nat.digitChar (n % 10)]

/-- The number that decimal digits stand for. -/
def value (text : List Char) : ℕ := text.foldl (fun total digit => 10 * total + (digit.toNat - 48)) 0

/-- One place of a pattern for each character; `none` asks for a digit. -/
def fits : List (Option Char) → List Char → Bool
  | [], [] => true
  | none :: pattern, c :: text => c.isDigit && fits pattern text
  | some a :: pattern, c :: text => decide (c = a) && fits pattern text
  | _, _ => false

/-- A place for each of `width` digits. -/
def digits (width : ℕ) : List (Option Char) := List.replicate width none

variable {width n : ℕ} {pattern pattern' : List (Option Char)} {text text' : List Char}

theorem isDigit_digitChar (bound : n < 10) : (Nat.digitChar n).isDigit = true := by
  interval_cases n <;> rfl

theorem toNat_digitChar (bound : n < 10) : (Nat.digitChar n).toNat - 48 = n := by
  interval_cases n <;> rfl

@[simp] theorem length_decimal (width n : ℕ) : (decimal width n).length = width := by
  induction width generalizing n with
  | zero => rfl
  | succ width ih => rw [decimal, List.length_append, ih, List.length_singleton]

theorem isDigit_of_mem_decimal {c : Char} (member : c ∈ decimal width n) : c.isDigit = true := by
  induction width generalizing n with
  | zero => cases member
  | succ width ih =>
    rcases List.mem_append.mp member with member | member
    · exact ih member
    · rw [List.mem_singleton.mp member]
      exact isDigit_digitChar (Nat.mod_lt _ (by decide))

/-- The digits give back the number, up to those that were left out. -/
@[simp] theorem value_decimal (width n : ℕ) : value (decimal width n) = n % 10 ^ width := by
  induction width generalizing n with
  | zero => rw [pow_zero, Nat.mod_one]; rfl
  | succ width ih =>
    have step : value (decimal (width + 1) n) = 10 * value (decimal width (n / 10)) + n % 10 := by
      rw [value, decimal, List.foldl_append, List.foldl_cons, List.foldl_nil,
        toNat_digitChar (Nat.mod_lt _ (by decide))]
      rfl
    rw [step, ih, pow_succ', Nat.mod_mul, add_comm]

/-- The leading digits are those of the number without the rest. -/
theorem take_decimal (width more n : ℕ) : (decimal (width + more) n).take width = decimal width (n / 10 ^ more) := by
  induction more generalizing n with
  | zero => rw [pow_zero, Nat.div_one, add_zero, List.take_of_length_le (length_decimal _ _).le]
  | succ more ih =>
    rw [← add_assoc, decimal, List.take_append_of_le_length (by rw [length_decimal]; omega), ih,
      Nat.div_div_eq_div_mul, pow_succ']

theorem length_of_fits (fit : fits pattern text = true) : text.length = pattern.length := by
  induction pattern generalizing text with
  | nil =>
    cases text with
    | nil => rfl
    | cons => cases fit
  | cons place pattern ih =>
    cases text with
    | nil => cases place <;> cases fit
    | cons c text =>
      have rest : fits pattern text = true := by
        cases place
        · exact (Bool.and_eq_true_iff.mp fit).2
        · exact (Bool.and_eq_true_iff.mp fit).2
      rw [List.length_cons, List.length_cons, ih rest]

theorem fits_append (fit : fits pattern text = true) (fit' : fits pattern' text' = true) :
    fits (pattern ++ pattern') (text ++ text') = true := by
  induction pattern generalizing text with
  | nil =>
    obtain rfl := List.length_eq_zero_iff.mp (length_of_fits fit)
    exact fit'
  | cons place pattern ih =>
    cases text with
    | nil => cases place <;> cases fit
    | cons c text =>
      cases place
      · exact Bool.and_eq_true_iff.mpr ⟨(Bool.and_eq_true_iff.mp fit).1, ih (Bool.and_eq_true_iff.mp fit).2⟩
      · exact Bool.and_eq_true_iff.mpr ⟨(Bool.and_eq_true_iff.mp fit).1, ih (Bool.and_eq_true_iff.mp fit).2⟩

/-- A character that the pattern does not name, and that is no digit, does not occur. -/
theorem notMem_of_fits {a : Char} (fit : fits pattern text = true) (unnamed : some a ∉ pattern)
    (noDigit : a.isDigit = false) : a ∉ text := by
  induction pattern generalizing text with
  | nil =>
    rw [List.length_eq_zero_iff.mp (length_of_fits fit)]
    exact List.not_mem_nil
  | cons place pattern ih =>
    cases text with
    | nil => exact List.not_mem_nil
    | cons c text =>
      have behind : some a ∉ pattern := fun found => unnamed (List.mem_cons_of_mem _ found)
      refine List.mem_cons.not.mpr (not_or.mpr ⟨?_, ?_⟩)
      · rintro rfl
        cases place with
        | none => exact absurd (Bool.and_eq_true_iff.mp fit).1 (by rw [noDigit]; decide)
        | some b =>
          rw [of_decide_eq_true (Bool.and_eq_true_iff.mp fit).1] at unnamed
          exact unnamed List.mem_cons_self
      · cases place
        · exact ih (Bool.and_eq_true_iff.mp fit).2 behind
        · exact ih (Bool.and_eq_true_iff.mp fit).2 behind

theorem fits_cons (a : Char) (fit : fits pattern text = true) : fits (some a :: pattern) (a :: text) = true :=
  Bool.and_eq_true_iff.mpr ⟨decide_eq_true rfl, fit⟩

theorem fits_digits (all : ∀ c ∈ text, c.isDigit = true) : fits (digits text.length) text = true := by
  induction text with
  | nil => rfl
  | cons c text ih =>
    exact Bool.and_eq_true_iff.mpr ⟨all c List.mem_cons_self, ih fun c member => all c (List.mem_cons_of_mem _ member)⟩

theorem fits_decimal (width n : ℕ) : fits (digits width) (decimal width n) = true := by
  have fit := fits_digits fun c (member : c ∈ decimal width n) => isDigit_of_mem_decimal member
  rwa [length_decimal] at fit

end FixedWidth
