import GraphBufferPool.Manager.Files
import GraphBufferPool.MmapArray.Views

/-! # The file of an array

`resize` asks for a file with the full pages of the items and the items of the last page; `open` counts the items of a
file back, and `set_partial` writes each of them to its place in it. The number of bytes is a `size_t`, and an
`off_t` where the file gets it: `ftruncate` refuses the upper half of the sizes, and above them they wrap around.
-/

namespace Gbp.MmapArray

/-- A writable array with items of that size. -/
structure Writes (array : MmapArray) (itemSize : ℕ) : Prop where
  item : array.itemSize = some itemSize
  perPage : array.objNumPerPage = some (Gbp.objNumPerPage itemSize)
  writable : array.readOnly = false
  handle : array.fdGbp ≠ noFile

/-- The place of item `idx` in the file: in one page, behind the items before it and in front of `fileSize`. -/
structure Placed (itemSize size fileSize : ℕ) (place : ℕ → ℕ) : Prop where
  inPage : ∀ idx < size, place idx % pageSize + itemSize ≤ pageSize
  inFile : ∀ idx < size, place idx + itemSize ≤ fileSize
  apart : ∀ idx < size, ∀ idx' < size, idx ≠ idx' →
    place idx + itemSize ≤ place idx' ∨ place idx' + itemSize ≤ place idx

/-- `resize` to `size` items, with what the file is like after it: `getSizeInByte` is the size that was asked for, `open`
of a file of that size counts `size` items, and `set_partial` writes the parts of each item to its place. -/
def ResizesTo (array : MmapArray) (itemSize size fileSize : ℕ) : Prop :=
  ∃ after request, array.resize size = .ok (after, request) ∧ (size ≠ array.size → request = .resize array.fdGbp fileSize) ∧
    after.size = size ∧ after.getSizeInByte = .ok fileSize ∧
    (∀ (other : MmapArray) log filename readOnly chunkSize,
      (other.open log filename readOnly (some fileSize) itemSize chunkSize).1.size = size) ∧
    ∃ place, Placed itemSize size fileSize place ∧ ∀ idx < size, ∀ offsetInItem val,
      offsetInItem + val.length ≤ itemSize →
        after.setPartial idx offsetInItem val = .ok (.setBlock val (place idx + offsetInItem) array.fdGbp)

variable {array : MmapArray} {itemSize size smaller : ℕ}

/-- The items that `open` counts are the ones of full pages and the ones of the last page. -/
theorem sizeOf_fileOffset (positive : 0 < itemSize) (fits : itemSize ≤ pageSize) (size : ℕ) :
    sizeOf (fileOffset itemSize size) (Gbp.objNumPerPage itemSize) itemSize = size := by
  rw [sizeOf, fileOffset_div positive fits, fileOffset_mod positive fits, Nat.mul_div_cancel _ positive]
  exact Nat.div_add_mod' size (Gbp.objNumPerPage itemSize)

theorem placed_fileOffset (positive : 0 < itemSize) (fits : itemSize ≤ pageSize) (size : ℕ) :
    Placed itemSize size (fileOffset itemSize size) (fileOffset itemSize) where
  inPage idx _ := by
    rw [fileOffset_mod positive fits]
    exact mod_mul_add_le positive fits idx
  inFile idx inside := fileOffset_add_le positive fits inside
  apart idx _ idx' _ other := by
    rcases Nat.lt_or_gt_of_ne other with before | after
    · exact Or.inl (fileOffset_add_le positive fits before)
    · exact Or.inr (fileOffset_add_le positive fits after)

theorem fileOffset_mono (positive : 0 < itemSize) (fits : itemSize ≤ pageSize) : Monotone (fileOffset itemSize) := by
  refine monotone_nat_of_le_succ fun idx => ?_
  exact (Nat.le_add_right _ itemSize).trans (fileOffset_add_le positive fits (Nat.lt_succ_self idx))

theorem open_size (other : MmapArray) (log : FileLog) (filename : String) (readOnly : Bool) (fileSize chunkSize : ℕ) :
    (other.open log filename readOnly (some fileSize) itemSize chunkSize).1.size =
      sizeOf fileSize (Gbp.objNumPerPage itemSize) itemSize := by
  simp only [MmapArray.open, reduceCtorEq, and_false, if_false]
  rfl

theorem Writes.layout (writes : Writes array itemSize) (positive : 0 < itemSize) (fits : itemSize ≤ pageSize) :
    array.layout = .ok (Gbp.objNumPerPage itemSize, itemSize) := by
  have some := objNumPerPage_pos positive fits
  simp only [MmapArray.layout, writes.item, writes.perPage, if_neg (Nat.pos_iff_ne_zero.mp some)]

/-- The number of bytes for `size` items is the place of the next one. -/
theorem Writes.sizeInByte (writes : Writes array itemSize) (positive : 0 < itemSize) (fits : itemSize ≤ pageSize)
    (size : ℕ) : array.sizeInByte size = .ok (fileOffset itemSize size % 2 ^ 64) := by
  rw [MmapArray.sizeInByte, writes.layout positive fits, fileOffset, Nat.add_comm (_ * pageSize)]
  rfl

/-- Up to the last size that is an `off_t`, an array is laid out as it was asked for, and more items take at
least as many bytes. The manager does what `resize` asks where the pages of the file fit its mappings. -/
theorem resizes_round_trip (writes : Writes array itemSize) (positive : 0 < itemSize) (fits : itemSize ≤ pageSize)
    (counted : fileOffset itemSize size < 2 ^ 63) : ResizesTo array itemSize size (fileOffset itemSize size) ∧
      (∀ smaller ≤ size, array.sizeInByte smaller = .ok (fileOffset itemSize smaller) ∧
        fileOffset itemSize smaller ≤ fileOffset itemSize size) ∧
      ∀ (R : Type) (mgr : BufferPoolManager R) bound, mgr.Covers → mgr.disk.validFD array.fdGbp = true →
        mgr.PagesFit (fileOffset itemSize size) →
        ∃ mgr', mgr.resize array.fdGbp (fileOffset itemSize size) bound = .ok mgr' ∧
          mgr'.disk.getFileSizeFast array.fdGbp = fileOffset itemSize size := by
  have placed := placed_fileOffset positive fits size
  have bytes {n : ℕ} (few : n ≤ size) : fileOffset itemSize n % 2 ^ 64 = fileOffset itemSize n :=
    Nat.mod_eq_of_lt (((fileOffset_mono positive fits few).trans_lt counted).trans (by decide))
  refine ⟨?_, fun smaller few => ⟨?_, fileOffset_mono positive fits few⟩, ?_⟩
  · -- the array after `resize` differs in its size at most
    have resized : ∃ request, array.resize size = .ok ({ array with size := size }, request) ∧
        (size ≠ array.size → request = .resize array.fdGbp (fileOffset itemSize size)) := by
      by_cases same : size = array.size
      · refine ⟨.nothing, ?_, absurd same⟩
        simp only [MmapArray.resize, if_neg writes.handle, if_pos same]
        rw [same]
        rfl
      · refine ⟨.resize array.fdGbp (fileOffset itemSize size), ?_, fun _ => rfl⟩
        simp only [MmapArray.resize, if_neg writes.handle, if_neg same, writes.writable,
          writes.sizeInByte positive fits, bytes le_rfl]
        simp only [bind, Except.bind, pure, Except.pure, Bool.false_eq_true, if_false, if_neg (Nat.not_le.mpr counted)]
    obtain ⟨request, ran, asked⟩ := resized
    have after : Writes { array with size := size } itemSize := ⟨writes.item, writes.perPage, writes.writable, writes.handle⟩
    refine ⟨_, request, ran, asked, rfl, ?_, fun other log filename readOnly chunkSize => ?_, fileOffset itemSize, placed,
      fun idx inside offsetInItem val within => ?_⟩
    · rw [getSizeInByte, after.sizeInByte positive fits, bytes le_rfl]
    · rw [open_size, sizeOf_fileOffset positive fits]
    · refine setPartial_eq ?_ (((placed.inFile idx inside).trans_lt counted).trans (by decide)) within
      rw [after.layout positive fits, objNumPerPage_eq]
  · rw [writes.sizeInByte positive fits, bytes few]
  · intro R mgr bound covers valid pages
    obtain ⟨mgr', ran⟩ := BufferPoolManager.exists_resize covers bound valid counted pages
    obtain ⟨_, _, resizes⟩ := BufferPoolManager.resize_returned ran
    refine ⟨mgr', ran, ?_⟩
    rw [resizes.disk, DiskManager.withSize_size _ _ valid, if_pos rfl]

/-- An array of 12-byte items, 341 to a page. -/
def edgeArray : MmapArray := ⟨0, "edges", 0, false, some 4096, some 12, some 341⟩

theorem resizes_round_trip_edgeArray : ResizesTo edgeArray 12 342 (fileOffset 12 342) ∧
    (∀ smaller ≤ 342, edgeArray.sizeInByte smaller = .ok (fileOffset 12 smaller) ∧
      fileOffset 12 smaller ≤ fileOffset 12 342) ∧
    ∃ mgr', (BufferPoolManager.oneFrame (BufferPoolManager.zeroFile 0 (by decide))).resize 0 4108 (by decide) =
      .ok mgr' ∧ mgr'.disk.getFileSizeFast 0 = 4108 := by
  obtain ⟨resizes, sizes, asked⟩ := @resizes_round_trip edgeArray 12 342 ⟨rfl, rfl, rfl, by decide⟩ (by decide)
    (by decide) (by decide)
  refine ⟨resizes, sizes, asked _ _ _ ?_ rfl (by unfold BufferPoolManager.PagesFit; decide)⟩
  have opens := BufferPoolManager.opens_init (R := SieveReplacer_v3) ⟨0⟩ 1 (fun _ _ _ => 0)
    (BufferPoolManager.zeroFile 0 (by decide))
  exact opens.covers (BufferPoolManager.blank_sound (K := fun _ _ => True) _ _ _).toCovers

/-- An array of items of one page. -/
def pageArray : MmapArray := ⟨0, "pages", 0, false, some 4096, some 4096, some 1⟩

/-- For `2 ^ 51` pages the size is negative as an `off_t`, and `Resize` fails its assertion; for `2 ^ 52` pages `resize`
asks for an empty file. -/
theorem resize_wraps_around : Writes pageArray 4096 ∧
    pageArray.resize (2 ^ 51) = .error .assertion ∧ (¬ ∃ fileSize, ResizesTo pageArray 4096 (2 ^ 51) fileSize) ∧
    pageArray.resize (2 ^ 52) = .ok ({ pageArray with size := 2 ^ 52 }, .resize 0 0) ∧
      ¬ ∃ fileSize, ResizesTo pageArray 4096 (2 ^ 52) fileSize := by
  have refused : pageArray.resize (2 ^ 51) = .error .assertion := by decide
  have ran : pageArray.resize (2 ^ 52) = .ok ({ pageArray with size := 2 ^ 52 }, .resize 0 0) := by decide
  refine ⟨⟨rfl, rfl, rfl, by decide⟩, refused, ?_, ran, ?_⟩
  · rintro ⟨fileSize, after, request, ran', _⟩
    cases refused.symm.trans ran'
  · rintro ⟨fileSize, after, request, ran', asked, _, _, reopened, _⟩
    cases ran.symm.trans ran'
    cases asked (by decide)
    have none := reopened pageArray ⟨0, []⟩ "pages" true 4096
    rw [open_size] at none
    revert none
    decide

end Gbp.MmapArray
