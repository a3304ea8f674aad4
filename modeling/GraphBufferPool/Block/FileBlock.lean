import GraphBufferPool.Config
import Mathlib

/-! # The pages of a block of a file

A block of a file has a page for each page of the file that it touches: the first one from where the block starts, the
others whole.
-/

namespace Gbp

/-- A `BufferBlock` of `size` bytes of a file, from `offset` on. -/
structure FileBlock where
  offset : ℕ
  size : ℕ
deriving DecidableEq, Repr

namespace FileBlock

/-- `num_page` of `GetBlockSync`. -/
def pageNum (block : FileBlock) : ℕ :=
  let fpageOffset := block.offset % pageSize
  if fpageOffset = 0 ∨ block.size ≤ pageSize - fpageOffset then ceil block.size pageSize
  else ceil (block.size - (pageSize - fpageOffset)) pageSize + 1

/-- `datas_.datas[pageId]`, and `datas_.data` for `pageId` 0. -/
def datas (block : FileBlock) (pageId : ℕ) : ℕ :=
  if pageId = 0 then block.offset else (block.offset / pageSize + pageId) * pageSize

/-- A block has one page at most if it ends in its first page. -/
theorem pageNum_lt_two_iff (block : FileBlock) :
    block.pageNum < 2 ↔ block.size ≤ pageSize - block.offset % pageSize := by
  have rest := Nat.mod_lt block.offset (show 0 < pageSize by decide)
  unfold pageNum
  dsimp only
  split_ifs with single
  · rw [Nat.lt_succ_iff, ceil_le_iff (by decide), Nat.one_mul]
    rcases single with aligned | fits
    · rw [aligned, Nat.sub_zero]
    · exact iff_of_true (fits.trans (Nat.sub_le ..)) fits
  · obtain ⟨_, crosses⟩ := not_or.mp single
    refine iff_of_false ?_ crosses
    have more : 0 < ceil (block.size - (pageSize - block.offset % pageSize)) pageSize := by
      rw [lt_ceil_iff (by decide), Nat.zero_mul]
      exact Nat.sub_pos_of_lt (Nat.lt_of_not_le crosses)
    omega

end FileBlock

end Gbp
