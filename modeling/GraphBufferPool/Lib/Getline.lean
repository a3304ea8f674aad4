import Mathlib.Data.List.TakeWhile
import Mathlib.Algebra.Order.Group.Nat

/-! # Reading a text piece by piece

A piece ends at a separator, which is dropped, or at the end of the text; the reading stops where nothing is left. A text
that ends with a separator has no empty piece after it.
-/

namespace Getline

variable {α : Type*} [DecidableEq α] {separator : α} {text piece rest : List α}

/-- The next piece and the text behind it, or none at the end of the text. -/
def getline (separator : α) (text : List α) : Option (List α × List α) :=
  if text = [] then none
  else some (text.takeWhile (· ≠ separator), (text.dropWhile (· ≠ separator)).drop 1)

/-- The pieces of the first `fuel` readings. -/
def pieces (separator : α) : ℕ → List α → List (List α)
  | 0, _ => []
  | fuel + 1, text =>
    match getline separator text with
    | none => []
    | some read => read.1 :: pieces separator fuel read.2

/-- The pieces up to the end of the text, which each reading shortens. -/
def getlines (separator : α) (text : List α) : List (List α) := pieces separator text.length text

@[simp] theorem getline_nil (separator : α) : getline separator [] = none := rfl

theorem getline_of_ne_nil (filled : text ≠ []) : ∃ piece rest, getline separator text = some (piece, rest) :=
  ⟨_, _, if_neg filled⟩

/-- A piece reaches up to the first separator, or it is all that was left. -/
theorem getline_cases (read : getline separator text = some (piece, rest)) :
    separator ∉ piece ∧ (text = piece ++ separator :: rest ∨ text = piece ∧ piece ≠ [] ∧ rest = []) := by
  unfold getline at read
  split at read
  · cases read
  · rename_i filled
    obtain ⟨rfl, rfl⟩ := Prod.mk.inj (Option.some.inj read)
    refine ⟨fun found => by simpa using List.mem_takeWhile_imp found, ?_⟩
    have whole := @List.takeWhile_append_dropWhile _ (· ≠ separator) text
    cases behind : text.dropWhile (· ≠ separator) with
    | nil =>
      rw [behind, List.append_nil] at whole
      exact Or.inr ⟨whole.symm, by rwa [whole], rfl⟩
    | cons first others =>
      have stops : first = separator := by
        have fails := List.head?_dropWhile_not (· ≠ separator) text
        rw [behind] at fails
        simpa using fails
      rw [behind, stops] at whole
      exact Or.inl (by simpa using whole.symm)

theorem getline_shortens (read : getline separator text = some (piece, rest)) : rest.length < text.length := by
  obtain ⟨-, rfl | ⟨rfl, filled, rfl⟩⟩ := getline_cases read
  · rw [List.length_append, List.length_cons]
    omega
  · exact List.length_pos_iff.mpr filled

/-- More readings than the text is long give nothing more. -/
theorem pieces_of_le {fuel : ℕ} (enough : text.length ≤ fuel) : pieces separator fuel text = getlines separator text := by
  -- Any two numbers of readings that are large enough agree.
  suffices same : ∀ (more less : ℕ) (text : List α), text.length ≤ more → text.length ≤ less →
      pieces separator more text = pieces separator less text from same _ _ _ enough le_rfl
  intro more
  induction more with
  | zero =>
    intro less text bound _
    obtain rfl := List.length_eq_zero_iff.mp (Nat.le_zero.mp bound)
    cases less <;> rfl
  | succ more ih =>
    intro less text bound bound'
    cases less with
    | zero =>
      obtain rfl := List.length_eq_zero_iff.mp (Nat.le_zero.mp bound')
      rfl
    | succ less =>
      rw [pieces, pieces]
      cases read : getline separator text with
      | none => rfl
      | some next =>
        have shorter := @getline_shortens _ _ _ _ next.1 next.2 read
        exact congrArg (List.cons _) (ih _ _ (by omega) (by omega))

@[simp] theorem getlines_nil (separator : α) : getlines separator [] = [] := rfl

theorem getlines_of_getline (read : getline separator text = some (piece, rest)) :
    getlines separator text = piece :: getlines separator rest := by
  have shorter := getline_shortens read
  obtain ⟨fuel, size⟩ : ∃ fuel, text.length = fuel + 1 := ⟨text.length - 1, by omega⟩
  rw [getlines, size, pieces, read]
  exact congrArg (List.cons _) (pieces_of_le (show rest.length ≤ fuel by omega))

/-- The number of pieces: one for each separator, and one for what follows the last separator, if anything does. -/
def pieceCount (separator : α) (text : List α) : ℕ :=
  text.count separator + if text = [] ∨ text.getLast? = some separator then 0 else 1

@[simp] theorem pieceCount_nil (separator : α) : pieceCount separator [] = 0 := rfl

theorem pieceCount_append (absent : separator ∉ piece) :
    pieceCount separator (piece ++ separator :: rest) = pieceCount separator rest + 1 := by
  unfold pieceCount
  rw [List.count_append, List.count_eq_zero.mpr absent, List.count_cons_self]
  cases rest with
  | nil => simp
  | cons first others =>
    have last : (piece ++ separator :: first :: others).getLast? = (first :: others).getLast? := by
      rw [List.getLast?_append, List.getLast?_cons_cons]
      exact Option.or_of_isSome (by simp)
    simp only [last, List.append_eq_nil_iff, List.cons_ne_nil, and_false, false_or]
    omega

theorem pieceCount_of_notMem (absent : separator ∉ piece) (filled : piece ≠ []) : pieceCount separator piece = 1 := by
  unfold pieceCount
  rw [List.count_eq_zero.mpr absent, if_neg]
  rintro (empty | last)
  · exact filled empty
  · exact absent (List.mem_of_getLast? last)

theorem length_getlines (separator : α) (text : List α) : (getlines separator text).length = pieceCount separator text := by
  induction size : text.length using Nat.strong_induction_on generalizing text with
  | _ size ih =>
    subst size
    by_cases filled : text = []
    · rw [filled]
      rfl
    · obtain ⟨piece, rest, read⟩ := @getline_of_ne_nil _ _ separator _ filled
      rw [getlines_of_getline read, List.length_cons, ih _ (getline_shortens read) rest rfl]
      obtain ⟨absent, rfl | ⟨rfl, filled, rfl⟩⟩ := getline_cases read
      · exact (pieceCount_append absent).symm
      · rw [pieceCount_nil, pieceCount_of_notMem absent filled]

end Getline
