import GraphBufferPool.Block.Compare

/-! # Comparing a block with a string

`Compare(string_view, size_t)` and the equality with a string that rests on it. `strncmp` stops at a NUL
byte that both sides have, but starts anew at every page of the block, and the difference of the
lengths is cut to 32 bits; `Mistaken` is when this takes different strings for equal ones.
-/

namespace Gbp

open Lexicographic

variable {mem : Bytes}

/-- `strncmp` finds no difference where each one lies behind a NUL byte of both strings. -/
theorem strncmp_eq_zero_iff {s1 s2 n : ℕ} : (strncmp mem s1 s2 n).1 = 0 ↔
    ∀ i < n, mem (s1 + i) ≠ mem (s2 + i) → ∃ j < i, mem (s1 + j) = 0 ∧ mem (s2 + j) = 0 := by
  induction n generalizing s1 s2 with
  | zero => exact iff_of_true rfl nofun
  | succ n ih =>
    have shift (s i : ℕ) : s + 1 + i = s + (i + 1) := by omega
    rw [strncmp]
    split_ifs with differ nul
    · refine iff_of_false (fun zero => differ (UInt8.toNat_inj.mp ?_)) fun hidden => ?_
      · dsimp only at zero
        omega
      · obtain ⟨j, before, _⟩ := hidden 0 (Nat.succ_pos n) differ
        exact Nat.not_lt_zero j before
    · rw [not_not] at differ
      refine iff_of_true rfl fun i _ apart => ⟨0, ?_, nul, differ.symm.trans nul⟩
      apply Nat.pos_of_ne_zero
      rintro rfl
      exact apart differ
    · rw [not_not] at differ
      change (strncmp mem (s1 + 1) (s2 + 1) n).1 = 0 ↔ _
      rw [ih]
      constructor
      · intro hidden i small apart
        obtain ⟨i, rfl⟩ := Nat.exists_eq_add_one_of_ne_zero (show i ≠ 0 by rintro rfl; exact apart differ)
        rw [← shift s1, ← shift s2] at apart
        obtain ⟨j, before, zero⟩ := hidden i (by omega) apart
        rw [shift s1, shift s2] at zero
        exact ⟨j + 1, by omega, zero⟩
      · intro hidden i small apart
        rw [shift s1, shift s2] at apart
        obtain ⟨j, before, zero⟩ := hidden (i + 1) (by omega) apart
        obtain ⟨j, rfl⟩ := Nat.exists_eq_add_one_of_ne_zero (show j ≠ 0 by rintro rfl; exact nul zero.1)
        rw [← shift s1, ← shift s2] at zero
        exact ⟨j, by omega, zero⟩

namespace BufferBlock

/-- `Compare(string_view, size_t)`, of a view of `rightSize` bytes at `right`. -/
def compareView (mem : Bytes) (block : BufferBlock) (right rightSize offset : ℕ) : Except Stop ℤ := do
  let sizeLeft := min (subSize block.size offset) rightSize
  let ret ←
    if block.pageNum > 1 then do
      let datas ← block.datas
      let (pages, offset) := if offset ≠ 0 then passPages datas offset else (datas, offset)
      -- `ret` is still -10 when there is no page left to compare.
      pure (if pages = [] then -10 else (innerFrom mem right pages offset sizeLeft 0).1)
    else pure (strncmp mem (block.dataPtr + offset) right sizeLeft).1
  return if ret = 0 ∧ offset = 0 ∧ subSize block.size offset ≠ rightSize then
    ((block.size : ℤ) - rightSize).bmod (2 ^ 32)
  else ret

/-- `operator==(string_view)`. -/
def equalsView (mem : Bytes) (block : BufferBlock) (right rightSize : ℕ) : Except Stop Bool := do
  let ret ← block.compareView mem right rightSize 0
  return decide (ret = 0)

/-- The page that holds a byte, counted from the first. -/
def pageIndex : List ℕ → ℕ → ℕ
  | [], _ => 0
  | data :: rest, i => if i < locInpage data then 0 else pageIndex rest (i - locInpage data) + 1

/-- The page of the block that holds a byte; a block without several pages is compared in one piece. -/
def pageOf (block : BufferBlock) (i : ℕ) : ℕ :=
  if block.pageNum < 2 then 0 else pageIndex block.pageDatas i

/-- The block holds the bytes of the view. -/
def SameBytes (mem : Bytes) (block : BufferBlock) (right rightSize : ℕ) : Prop :=
  block.size = rightSize ∧ ∀ i < block.size, mem (block.address i) = mem (right + i)

/-- The block and the view differ, but their lengths agree modulo 2^32, and each of the bytes in which
they differ comes behind a byte of its page that is NUL in both. -/
def Mistaken (mem : Bytes) (block : BufferBlock) (right rightSize : ℕ) : Prop :=
  ¬ block.SameBytes mem right rightSize ∧ block.size % 2 ^ 32 = rightSize % 2 ^ 32 ∧
    ∀ i < min block.size rightSize, mem (block.address i) ≠ mem (right + i) →
      ∃ j < i, block.pageOf j = block.pageOf i ∧ mem (block.address j) = 0 ∧ mem (right + j) = 0

/-- The second loop finds no difference where each one lies behind a NUL byte of its page. -/
theorem innerFrom_eq_zero_iff {pages : List ℕ} {base n cum : ℕ} (fits : n ≤ capacity pages) :
    (innerFrom mem base pages 0 n cum).1 = 0 ↔
      ∀ i < n, mem (locate pages i) ≠ mem (base + cum + i) → ∃ j < i, pageIndex pages j = pageIndex pages i ∧
        mem (locate pages j) = 0 ∧ mem (base + cum + j) = 0 := by
  induction pages generalizing n cum with
  | nil =>
    obtain rfl : n = 0 := by simpa using fits
    exact iff_of_true rfl nofun
  | cons data rest ih =>
    have slice := @sliceLen_eq data 0 n (locInpage_pos data)
    rw [capacity_cons] at fits
    rw [innerFrom, slice, Nat.sub_zero]
    set len := min (locInpage data) n with len_eq
    have here (i : ℕ) (below : i < locInpage data) : locate (data :: rest) i = data + i ∧
        pageIndex (data :: rest) i = 0 := by
      rw [locate, pageIndex, if_pos below, if_pos below]
      exact ⟨rfl, rfl⟩
    have later (i : ℕ) : locate (data :: rest) (locInpage data + i) = locate rest i ∧
        pageIndex (data :: rest) (locInpage data + i) = pageIndex rest i + 1 := by
      rw [locate, pageIndex, if_neg (by omega), if_neg (by omega), Nat.add_sub_cancel_left]
      exact ⟨rfl, rfl⟩
    have first := @strncmp_eq_zero_iff mem (data + 0) (base + cum) len
    rw [Nat.add_zero] at first
    dsimp only [Nat.add_zero]
    by_cases same : (strncmp mem data (base + cum) len).1 = 0
    · rw [if_neg (not_not.mpr same)]
      have covered := first.mp same
      change (innerFrom mem base rest 0 (n - len) (cum + len)).1 = 0 ↔ _
      rw [ih (by omega)]
      constructor
      · intro hidden i small apart
        rcases Nat.lt_or_ge i (locInpage data) with inside | past
        · rw [(here i inside).1] at apart
          obtain ⟨j, before, zero⟩ := covered i (by omega) apart
          have place := here j (by omega)
          exact ⟨j, before, place.2.trans (here i inside).2.symm, by rw [place.1]; exact zero.1, zero.2⟩
        · obtain ⟨i, rfl⟩ := Nat.exists_eq_add_of_le past
          have full : len = locInpage data := by omega
          rw [(later i).1, show base + cum + (locInpage data + i) = base + (cum + len) + i by omega] at apart
          obtain ⟨j, before, page, zero⟩ := hidden i (by omega) apart
          refine ⟨locInpage data + j, by omega, ?_, ?_, ?_⟩
          · rw [(later j).2, (later i).2, page]
          · rw [(later j).1]
            exact zero.1
          · rw [show base + cum + (locInpage data + j) = base + (cum + len) + j by omega]
            exact zero.2
      · intro hidden i small apart
        have full : len = locInpage data := by omega
        rw [← (later i).1, show base + (cum + len) + i = base + cum + (locInpage data + i) by omega] at apart
        obtain ⟨j, before, page, zero⟩ := hidden (locInpage data + i) (by omega) apart
        rw [(later i).2] at page
        rcases Nat.lt_or_ge j (locInpage data) with inside | past
        · rw [(here j inside).2] at page
          omega
        · obtain ⟨j, rfl⟩ := Nat.exists_eq_add_of_le past
          rw [(later j).2] at page
          rw [(later j).1, show base + cum + (locInpage data + j) = base + (cum + len) + j by omega] at zero
          exact ⟨j, by omega, by omega, zero⟩
    · rw [if_pos same]
      refine iff_of_false same fun hidden => same (first.mpr fun i small apart => ?_)
      have inside := here i (by omega)
      rw [← inside.1] at apart
      obtain ⟨j, before, _, zero⟩ := hidden i (by omega) apart
      rw [(here j (by omega)).1] at zero
      exact ⟨j, before, zero⟩

variable {block : BufferBlock}

/-- `operator==` compares the lengths modulo 2^32 and every byte that no NUL byte hides. -/
theorem Whole.equalsView (whole : block.Whole) {right rightSize : ℕ} (small : block.size < 2 ^ 64) : ∃ equal, block.equalsView mem right rightSize = .ok equal ∧
      (equal = true ↔ block.size % 2 ^ 32 = rightSize % 2 ^ 32 ∧
        ∀ i < min block.size rightSize, mem (block.address i) ≠ mem (right + i) →
          ∃ j < i, block.pageOf j = block.pageOf i ∧ mem (block.address j) = 0 ∧ mem (right + j) = 0) := by
  have sizes : subSize block.size 0 = block.size := subSize_of_le small (Nat.zero_le _)
  have length (ret : ℤ) : decide ((if ret = 0 ∧ block.size ≠ rightSize then
      ((block.size : ℤ) - rightSize).bmod (2 ^ 32) else ret) = 0) = true ↔
        block.size % 2 ^ 32 = rightSize % 2 ^ 32 ∧ ret = 0 := by
    rw [decide_eq_true_iff, Int.bmod_def]
    split_ifs <;> omega
  have start : ¬ (0 : ℕ) ≠ 0 := not_not.mpr rfl
  unfold BufferBlock.equalsView compareView
  by_cases single : block.pageNum < 2
  · have place (i : ℕ) : block.address i = block.dataPtr + i := by rw [address, if_pos single]
    simp only [if_neg (show ¬ block.pageNum > 1 by omega), sizes, Nat.add_zero, true_and]
    refine ⟨_, rfl, (length _).trans ?_⟩
    rw [strncmp_eq_zero_iff]
    simp only [place, pageOf, if_pos single, true_and]
  · have place (i : ℕ) : block.address i = locate block.pageDatas i := by rw [address, if_neg single]
    have pages : block.pageDatas ≠ [] := by
      apply List.ne_nil_of_length_pos
      rw [length_pageDatas whole.complete]
      omega
    have enough := whole.enough (Nat.not_lt.mp single)
    simp only [if_pos (show block.pageNum > 1 by omega), sizes, datas_eq whole.complete, ok_bind, if_neg start,
      if_neg pages, true_and]
    refine ⟨_, rfl, (length _).trans ?_⟩
    rw [innerFrom_eq_zero_iff (by omega)]
    simp only [place, pageOf, if_neg single, Nat.add_zero]

/-- `operator==` is the equality of the bytes unless it is mistaken. -/
theorem equals_view_iff (whole : block.Whole) {right rightSize : ℕ} (small : block.size < 2 ^ 64) :
    (∃ equal, block.equalsView mem right rightSize = .ok equal ∧
      (equal = true ↔ block.SameBytes mem right rightSize)) ↔ ¬ block.Mistaken mem right rightSize := by
  obtain ⟨equal, ran, found⟩ := @Whole.equalsView mem _ whole right rightSize small
  have complete (same : block.SameBytes mem right rightSize) : equal = true :=
    found.mpr ⟨by rw [same.1], fun i below apart => absurd (same.2 i (by omega)) apart⟩
  constructor
  · rintro ⟨equal', ran', exactly⟩ ⟨differ, lengths, hidden⟩
    obtain rfl := Except.ok.inj (ran.symm.trans ran')
    exact differ (exactly.mp (found.mpr ⟨lengths, hidden⟩))
  · intro honest
    refine ⟨equal, ran, fun claimed => ?_, complete⟩
    by_contra differ
    exact honest ⟨differ, found.mp claimed⟩

theorem equals_view_twoBytes : ∃ equal, twoBytes.equalsView oddSlack 44960 2 = .ok equal ∧
    (equal = true ↔ twoBytes.SameBytes oddSlack 44960 2) := by
  refine (equals_view_iff twoBytes_comparable.toWhole (by decide)).mpr fun mistaken => mistaken.1 ?_
  exact ⟨rfl, by decide⟩

/-- A buffer of the bytes 00 01. -/
def nulFirst : BufferBlock := ofBuffer 2 4096

/-- `nulFirst`, and the string 00 02 at address 8192. -/
def nulMemory : Bytes := fun i => if i = 4097 then 1 else if i = 8193 then 2 else 0

/-- Behind a NUL byte no difference is found. -/
theorem equals_view_not_bytes :
    nulFirst.equalsView nulMemory 8192 2 = .ok true ∧ ¬ nulFirst.SameBytes nulMemory 8192 2 := by
  refine ⟨by decide +kernel, fun same => absurd (same.2 1 (by decide)) (by decide)⟩

end BufferBlock

end Gbp
