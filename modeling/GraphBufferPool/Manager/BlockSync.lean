import GraphBufferPool.Block.FileBlock
import GraphBufferPool.Manager.SetBlock

/-! # `GetBlockSync`

The call that hands out a block: it pins the pages of a range one after the other and puts the address of
each into the block, whose bytes are then read where the frames lie.
-/

namespace Gbp.BufferPoolManager

open Function LawfulReplacer BufferPool DiskManager Fuel

section model

variable {R : Type}

/-- The bytes of a block. -/
def blockBytes (mgr : BufferPoolManager R) (heap : Bytes) (block : BufferBlock) : List UInt8 :=
  (List.range block.size).map fun i => mgr.byteAt heap (block.address i)

/-- The argument of `InsertPage` for a page in frame `m`. -/
def blockPage (mgr : BufferPoolManager R) (page : Page) (m fpageOffset : ℕ) : BlockPage :=
  ⟨mgr.frameAddress (mgr.poolOf page) m + fpageOffset, ⟨mgr.poolOf page, m⟩, false⟩

variable [Replacer R]

/-- What `GetBlockSync` does with one of its pages: `FetchPageSync` and `InsertPage`. -/
def insertFetched (fileOffset fd fuel : ℕ) :
    BufferBlock × BufferPoolManager R → ℕ → Except Stop (BufferBlock × BufferPoolManager R)
  | (block, mgr), pageId => do
    let page : Page := ⟨fd, (fpageIdOf fileOffset + pageId) % fpageIdRange⟩
    let fpageOffset := if pageId = 0 then fileOffset % pageSize else 0
    let (m, mgr) ← mgr.fetchPageSync fuel page
    return (← block.insertPage pageId (mgr.blockPage page m fpageOffset), mgr)

/-- `GetBlockSync`. -/
def getBlockSync (fuel fileOffset blockSize fd : ℕ) (mgr : BufferPoolManager R) :
    Except Stop (BufferBlock × BufferPoolManager R) :=
  if blockSize = 0 then .ok (.empty, mgr)
  else
    let numPage := FileBlock.pageNum ⟨fileOffset, blockSize⟩
    (List.range numPage).foldlM (insertFetched fileOffset fd fuel) (.new blockSize numPage, mgr)

end model

variable {R : Type} {mgr mgr' : BufferPoolManager R} {fd fileOffset blockSize m : ℕ} {page : Page}

/-- A block of one page. -/
def onePage (mgr : BufferPoolManager R) (page : Page) (m fpageOffset blockSize : ℕ) : BufferBlock :=
  ⟨blockSize, 0, [some (mgr.blockPage page m fpageOffset)]⟩

/-- The bytes of a block of one page are those of its frame. -/
theorem blockBytes_onePage {fpageOffset : ℕ} (within : fpageOffset + blockSize ≤ pageSize) (inside : m < mgr.poolSize)
    (heap : Bytes) : mgr.blockBytes heap (mgr.onePage page m fpageOffset blockSize) =
      (List.range blockSize).map fun i => mgr.frame page m (fpageOffset + i) := by
  refine List.map_congr_left fun i member => ?_
  have small : i < blockSize := List.mem_range.mp member
  have address : (mgr.onePage page m fpageOffset blockSize).address i =
      mgr.frameAddress (mgr.poolOf page) m + (fpageOffset + i) := Nat.add_assoc ..
  rw [address, byteAt_frame (mgr.poolOf_lt page) inside (by omega)]
  rfl

/-- The first page of a range. -/
theorem InRange.firstPage (range : InRange mgr fd fileOffset blockSize) (positive : 0 < blockSize) :
    InFile mgr ⟨fd, fileOffset / pageSize⟩ := range.page positive

/-- Freeing a block of one page. -/
theorem onePage_free (positive : 0 < blockSize) (mgr : BufferPoolManager R) (page : Page) (m fpageOffset : ℕ) :
    (mgr.onePage page m fpageOffset blockSize).free =
      .ok ([.decRefCount ⟨mgr.poolOf page, m⟩], (mgr.onePage page m fpageOffset blockSize).emptied) := by
  have nonempty : (mgr.onePage page m fpageOffset blockSize).size ≠ 0 := Nat.pos_iff_ne_zero.mp positive
  rw [BufferBlock.free, BufferBlock.releases, if_pos nonempty]
  rfl

variable [Replacer R]

/-- A block that lies in one page. -/
theorem getBlockSync_inPage (positive : 0 < blockSize) (within : fileOffset % pageSize + blockSize ≤ pageSize)
    (bound : fileOffset < fpageIdRange * pageSize) (mgr : BufferPoolManager R) (fuel : ℕ) :
    mgr.getBlockSync fuel fileOffset blockSize fd = (do
      let (m, mgr) ← mgr.fetchPageSync fuel ⟨fd, fileOffset / pageSize⟩
      return (mgr.onePage ⟨fd, fileOffset / pageSize⟩ m (fileOffset % pageSize) blockSize, mgr)) := by
  have one : FileBlock.pageNum ⟨fileOffset, blockSize⟩ = 1 := by
    have few := (FileBlock.pageNum_lt_two_iff ⟨fileOffset, blockSize⟩).mpr (Nat.le_sub_of_add_le' within)
    have some : 0 < FileBlock.pageNum ⟨fileOffset, blockSize⟩ := by
      unfold FileBlock.pageNum
      dsimp only
      split_ifs
      · rwa [lt_ceil_iff (by decide), Nat.zero_mul]
      · exact Nat.succ_pos _
    omega
  have id : (fpageIdOf fileOffset + 0) % fpageIdRange = fileOffset / pageSize := by
    have small : fileOffset / pageSize < fpageIdRange := (Nat.div_lt_iff_lt_mul (by decide)).mpr bound
    rw [fpageIdOf, Nat.add_zero, Nat.mod_mod, Nat.mod_eq_of_lt small]
  rw [getBlockSync, if_neg (Nat.pos_iff_ne_zero.mp positive)]
  simp only [one, List.range_one, List.foldlM_cons, List.foldlM_nil, insertFetched, id, if_true]
  cases mgr.fetchPageSync fuel ⟨fd, fileOffset / pageSize⟩ <;> rfl

/-- Such a block is returned once its page is. -/
theorem getBlockSync_returns (positive : 0 < blockSize) (within : fileOffset % pageSize + blockSize ≤ pageSize)
    (bound : fileOffset < fpageIdRange * pageSize) {block : BufferBlock} :
    Returns (fun fuel => mgr.getBlockSync fuel fileOffset blockSize fd) (block, mgr') ↔
      ∃ m, Returns (fun fuel => mgr.fetchPageSync fuel ⟨fd, fileOffset / pageSize⟩) (m, mgr') ∧
        block = mgr'.onePage ⟨fd, fileOffset / pageSize⟩ m (fileOffset % pageSize) blockSize := by
  simp only [getBlockSync_inPage positive within bound]
  constructor
  · rintro ⟨fuel, enough⟩
    obtain ⟨⟨m, mid⟩, fetched, same⟩ := bind_eq_ok.mp (enough fuel le_rfl)
    cases same
    exact ⟨m, (fetchPageSync_stable _ mgr).returns fetched, rfl⟩
  · rintro ⟨m, fetched, rfl⟩
    exact fetched.bind .const

end Gbp.BufferPoolManager
