import GraphBufferPool.MmapArray.LiveBlocks
import GraphBufferPool.MmapArray.Sizes

/-! # Arrays of items

What a program sees of the items of an `mmap_array` through the blocks that `get` returns, however many
pages they have: `Ref` reads an item where `DecodeWithPTE` finds it, `UpdateContent` stores one there and
marks its page, and `set_partial` stores a part of one. Items are read as they were last
stored, in whatever way and while whatever pages come and go.
-/

namespace Gbp

open Function BufferPoolManager BufferPool Fuel Machine

namespace BufferBlock

/-- `ptes_.pte` of a block with fewer than two pages; it is null without a page. -/
def pte? (block : BufferBlock) : Option EntryId :=
  match block.slots with
  | [some page] => some page.pte
  | _ => none

/-- `datas_.datas[pageId]` and `ptes_.ptes[pageId]`. -/
def page (block : BufferBlock) (pageId : ℕ) : Except Stop BlockPage :=
  match block.slots[pageId]? with
  | some (some page) => .ok page
  | _ => .error .badIndex

/-- `DecodeWithPTE<OBJ_Type>(idx)`, with `size` for `sizeof(OBJ_Type)`; `Decode` returns the same address. -/
def decodeWithPTE (block : BufferBlock) (size idx : ℕ) : Except Stop (ℕ × Option EntryId) :=
  if block.pageNum < 2 then .ok (block.dataPtr + idx * size, block.pte?)
  else do
    let first ← block.page 0
    if idx = 0 then return (first.data, some first.pte)
    let objNumCurpage := (pageSize - first.data % pageSize) / size
    if objNumCurpage > idx then return (first.data + idx * size, some first.pte)
    let idx := idx - objNumCurpage
    let page ← block.page (idx / (pageSize / size) + 1)
    return (page.data + idx % (pageSize / size) * size, some page.pte)

end BufferBlock

namespace BufferPoolManager

section model

variable {R : Type}

/-- The bytes of an object at an address. -/
def load (mgr : BufferPoolManager R) (heap : Bytes) (ptr size : ℕ) : List UInt8 :=
  (List.range size).map fun i => mgr.byteAt heap (ptr + i)

/-- A store to an object that lies in one frame. -/
def store (mgr : BufferPoolManager R) (ptr : ℕ) (bytes : List UInt8) : BufferPoolManager R :=
  let i := ptr / pageSize / mgr.poolSize
  let m := ptr / pageSize % mgr.poolSize
  let pool := mgr.pool i
  mgr.setPool i (pool.withBytes m (memcpy (pool.memory m) (ptr % pageSize) (bytes.getD · 0) 0 bytes.length))

/-- `Ref<OBJ_Type>(obj, idx)`: the bytes of the object. -/
def ref (mgr : BufferPoolManager R) (heap : Bytes) (block : BufferBlock) (size idx : ℕ) :
    Except Stop (List UInt8) := do
  let (ptr, _) ← block.decodeWithPTE size idx
  return mgr.load heap ptr size

/-- `UpdateContent<OBJ_Type>(cb, obj, idx)`, with `cb` as what it makes of the bytes of the object. -/
def updateContent (cb : List UInt8 → List UInt8) (heap : Bytes) (block : BufferBlock) (size idx : ℕ)
    (mgr : BufferPoolManager R) : Except Stop (BufferPoolManager R) := do
  let (ptr, pte) ← block.decodeWithPTE size idx
  let mgr := mgr.store ptr (cb (mgr.load heap ptr size))
  match pte with
  | some pte => return mgr.setDirty pte
  | none => throw .nullNode

end model

end BufferPoolManager

/-- The files after an item has been stored. -/
def setItem (content : Content) (fd itemSize idx : ℕ) (item : List UInt8) : Content :=
  splice content fd (fileOffset itemSize idx) (item.getD · 0) itemSize

/-- The pages of `len` items. -/
def itemPages (fd itemSize idx len : ℕ) : List Page :=
  (List.range (fileOffset itemSize (idx + len - 1) / pageSize - fileOffset itemSize idx / pageSize + 1)).map
    (pageAt fd (fileOffset itemSize idx))

/-- A block of this size from the first of `len` items on has all of them, and ends in the page of the last. -/
structure Spans (itemSize idx len blockSize : ℕ) : Prop where
  reaches : ∀ j < len, fileOffset itemSize (idx + j) + itemSize ≤ fileOffset itemSize idx + blockSize
  last : fileOffset itemSize idx + blockSize ≤ (fileOffset itemSize (idx + len - 1) / pageSize + 1) * pageSize

variable {itemSize idx len blockSize j k : ℕ} {content : Content} {fd : ℕ}

section layout

/-- An item ends before the page after the one of the item before it. -/
theorem fileOffset_succ_le (positive : 0 < itemSize) (fits : itemSize ≤ pageSize) (idx : ℕ) :
    fileOffset itemSize (idx + 1) ≤ (fileOffset itemSize idx / pageSize + 1) * pageSize := by
  have count := objNumPerPage_pos positive fits
  have place := Nat.mod_lt idx count
  rw [fileOffset_div positive fits]
  rcases Nat.lt_or_ge (idx % objNumPerPage itemSize + 1) (objNumPerPage itemSize) with same | next
  · have start := @fileOffset_add_same itemSize idx 1 same
    have room := mod_mul_add_le positive fits idx
    rw [start, fileOffset, Nat.one_mul, Nat.add_mul]
    omega
  · have start := @fileOffset_add_later itemSize idx 1 positive fits (by omega)
    have none : 1 - (objNumPerPage itemSize - idx % objNumPerPage itemSize) = 0 := by omega
    rw [start, none, Nat.zero_div, Nat.zero_mod, Nat.zero_mul, Nat.zero_add, Nat.add_zero]

theorem fileOffset_le_add (positive : 0 < itemSize) (fits : itemSize ≤ pageSize) (idx j : ℕ) :
    fileOffset itemSize idx ≤ fileOffset itemSize (idx + j) :=
  MmapArray.fileOffset_mono positive fits (Nat.le_add_right ..)

/-- The items of a page, counted from one of them. -/
theorem mod_add_mul_le (positive : 0 < itemSize) (fits : itemSize ≤ pageSize)
    (same : idx % objNumPerPage itemSize + j < objNumPerPage itemSize) :
    fileOffset itemSize idx % pageSize + j * itemSize + itemSize ≤ pageSize := by
  have room := mod_mul_add_le positive fits (idx + j)
  have index : (idx + j) % objNumPerPage itemSize = idx % objNumPerPage itemSize + j := by
    rw [Nat.add_mod, Nat.mod_eq_of_lt (show j < objNumPerPage itemSize by omega), Nat.mod_eq_of_lt (by omega)]
  rwa [index, Nat.add_mul, ← fileOffset_mod positive fits] at room

/-- The items of `get` that lie in one page. -/
theorem spans_single (positive : 0 < itemSize) (fits : itemSize ≤ pageSize) (some : 0 < len)
    (short : len * itemSize < pageSize - fileOffset itemSize idx % pageSize) :
    Spans itemSize idx len (itemSize * len) := by
  have place : idx % objNumPerPage itemSize + len ≤ objNumPerPage itemSize := by
    rw [fileOffset_mod positive fits] at short
    rw [objNumPerPage_eq] at short ⊢
    apply (Nat.le_div_iff_mul_le positive).mpr
    rw [Nat.add_mul]
    omega
  have item (j : ℕ) (inside : j < len) :
      fileOffset itemSize (idx + j) = fileOffset itemSize idx + j * itemSize := fileOffset_add_same (by omega)
  constructor
  · intro j inside
    have room := Nat.mul_le_mul_left itemSize (Nat.succ_le_of_lt inside)
    rw [item j inside, Nat.mul_comm j]
    rw [Nat.mul_succ] at room
    omega
  · have split := Nat.div_add_mod' (fileOffset itemSize idx) pageSize
    have first : fileOffset itemSize idx / pageSize ≤ fileOffset itemSize (idx + len - 1) / pageSize := by
      apply Nat.div_le_div_right
      rw [Nat.add_sub_assoc some]
      exact fileOffset_le_add positive fits idx (len - 1)
    have page := Nat.mul_le_mul_right pageSize first
    rw [Nat.add_mul, Nat.mul_comm itemSize]
    omega

/-- The items of `get` that do not end in the first page. -/
theorem spans_more (positive : 0 < itemSize) (fits : itemSize ≤ pageSize)
    (long : pageSize - fileOffset itemSize idx % pageSize ≤ len * itemSize) (some : 0 < len) :
    Spans itemSize idx len (pageSize - fileOffset itemSize idx % pageSize + fileOffset itemSize
      (len - (pageSize - fileOffset itemSize idx % pageSize) / itemSize)) := by
  have count := objNumPerPage_pos positive fits
  have place := Nat.mod_lt idx count
  have rest := restFirstPage_div positive fits idx
  have inPage : fileOffset itemSize idx % pageSize < pageSize := Nat.mod_lt _ (by decide)
  have split := Nat.div_add_mod' (fileOffset itemSize idx) pageSize
  have page := fileOffset_div positive fits idx
  have enough : objNumPerPage itemSize - idx % objNumPerPage itemSize ≤ len := by
    rw [← rest]
    exact Nat.div_le_of_le_mul (by rwa [Nat.mul_comm])
  rw [rest]
  set first := objNumPerPage itemSize - idx % objNumPerPage itemSize with first_eq
  -- An item behind the first page, from the end of that page.
  have behind (j : ℕ) (later : first ≤ j) : fileOffset itemSize (idx + j) =
      fileOffset itemSize idx / pageSize * pageSize + pageSize + fileOffset itemSize (j - first) := by
    rw [@fileOffset_add_later itemSize idx j positive fits later, page, fileOffset, ← first_eq]
    ring
  constructor
  · intro j inside
    rcases Nat.lt_or_ge j first with early | later
    · have item := @fileOffset_add_same itemSize idx j (by omega)
      have small := @mod_add_mul_le itemSize idx j positive fits (by omega)
      omega
    · have before := fileOffset_add_le positive fits (show j - first < len - first by omega)
      rw [behind j later]
      omega
  · rcases Nat.eq_or_lt_of_le enough with all | more
    · have last : idx + len - 1 = idx + (len - 1) := Nat.add_sub_assoc some _
      have none : fileOffset itemSize (len - first) = 0 := by
        rw [← all, Nat.sub_self, fileOffset, Nat.zero_div, Nat.zero_mod, Nat.zero_mul, Nat.zero_mul]
      have same : fileOffset itemSize idx / pageSize ≤ fileOffset itemSize (idx + len - 1) / pageSize := by
        apply Nat.div_le_div_right
        rw [last]
        exact fileOffset_le_add positive fits idx (len - 1)
      have pages := Nat.mul_le_mul_right pageSize same
      rw [none, Nat.add_mul]
      omega
    · obtain ⟨n, count⟩ : ∃ n, len - first = n + 1 := ⟨len - first - 1, by omega⟩
      have last : idx + len - 1 = idx + (len - 1) := Nat.add_sub_assoc some _
      have next := fileOffset_succ_le positive fits n
      have index : len - 1 - first = n := by omega
      have start := behind (len - 1) (by omega)
      have quotient :
          (fileOffset itemSize idx / pageSize * pageSize + pageSize + fileOffset itemSize n) / pageSize =
            fileOffset itemSize idx / pageSize + 1 + fileOffset itemSize n / pageSize := by
        rw [← Nat.succ_mul, Nat.add_comm, Nat.add_mul_div_right _ _ (by decide), Nat.add_comm]
      rw [count, last, start, index, quotient]
      rw [Nat.add_mul] at next
      rw [Nat.add_mul, Nat.add_mul, Nat.add_mul]
      omega

/-- The pages of a block that spans some items are those of the items. -/
theorem Spans.pageCount (spans : Spans itemSize idx len blockSize) (positive : 0 < itemSize)
    (fits : itemSize ≤ pageSize) (some : 0 < len) : pageCount (fileOffset itemSize idx) blockSize =
      fileOffset itemSize (idx + len - 1) / pageSize - fileOffset itemSize idx / pageSize + 1 := by
  have reached := spans.reaches (len - 1) (Nat.sub_lt some Nat.one_pos)
  have last := spans.last
  rw [show idx + (len - 1) = idx + len - 1 by omega] at reached
  have low : fileOffset itemSize (idx + len - 1) / pageSize ≤
      (fileOffset itemSize idx + blockSize - 1) / pageSize := Nat.div_le_div_right (by omega)
  have high : (fileOffset itemSize idx + blockSize - 1) / pageSize <
      fileOffset itemSize (idx + len - 1) / pageSize + 1 := by
    apply (Nat.div_lt_iff_lt_mul (by decide)).mpr
    omega
  have size : blockSize ≠ 0 := by
    rintro rfl
    have mono := fileOffset_le_add positive fits idx (len - 1)
    rw [show idx + (len - 1) = idx + len - 1 by omega] at mono
    omega
  rw [Gbp.pageCount, if_neg size]
  omega

/-- The pages of items that lie in the file. -/
theorem Spans.pagesIn {R : Type} {mgr : BufferPoolManager R} {array : MmapArray}
    (spans : Spans itemSize idx len blockSize) (onFile : OnFile mgr array itemSize) (some : 0 < len)
    (inside : idx + len ≤ array.size) :
    mgr.PagesIn array.fdGbp (fileOffset itemSize idx) blockSize := by
  intro k before
  rw [spans.pageCount onFile.positive onFile.fits some] at before
  obtain ⟨range, _⟩ := @OnFile.inRange _ mgr array itemSize (idx + len - 1) onFile (by omega)
  have first := range.firstPage onFile.positive
  have mono := Nat.div_le_div_right (c := pageSize)
    (MmapArray.fileOffset_mono onFile.positive onFile.fits (show idx ≤ idx + len - 1 by omega))
  refine ⟨first.handle, first.valid, first.small, ?_⟩
  have page := Nat.mul_le_mul_right pageSize
    (show fileOffset itemSize idx / pageSize + k ≤ fileOffset itemSize (idx + len - 1) / pageSize by omega)
  exact page.trans_lt first.inside

/-- The items before one take no more room than their pages have. -/
theorem mul_le_fileOffset (idx : ℕ) : idx * itemSize ≤ fileOffset itemSize idx := by
  have split := Nat.div_add_mod' idx (objNumPerPage itemSize)
  have page : objNumPerPage itemSize * itemSize ≤ pageSize := by
    rw [objNumPerPage_eq]
    exact Nat.div_mul_le_self ..
  rw [fileOffset]
  calc idx * itemSize
    _ = idx / objNumPerPage itemSize * (objNumPerPage itemSize * itemSize) +
        idx % objNumPerPage itemSize * itemSize := by
      rw [← Nat.mul_assoc, ← Nat.add_mul, split]
    _ ≤ _ := Nat.add_le_add_right (Nat.mul_le_mul_left _ page) _

/-- `get` asks for a block that spans its items. -/
theorem OnFile.getItems {R : Type} {mgr : BufferPoolManager R} {array : MmapArray}
    (onFile : OnFile mgr array itemSize) (some : 0 < len) (inside : idx + len ≤ array.size) :
    ∃ blockSize, Spans itemSize idx len blockSize ∧
      array.get idx len = .ok (.getBlockSync (fileOffset itemSize idx) blockSize array.fdGbp) := by
  have positive := onFile.positive
  have small := (Nat.le_add_right ..).trans_lt (@OnFile.small _ mgr array itemSize idx onFile (by omega))
  have inPage : fileOffset itemSize idx % pageSize < pageSize := Nat.mod_lt _ (by decide)
  -- The sizes of blocks of items that lie in the file are no larger than the file and one page.
  have last := (@OnFile.inRange _ mgr array itemSize (idx + len - 1) onFile (by omega)).1.bound
  have items := @mul_le_fileOffset itemSize (idx + len - 1)
  have some' : len * itemSize ≤ (idx + len - 1) * itemSize + itemSize := by
    rw [← Nat.succ_mul]
    exact Nat.mul_le_mul_right _ (by omega)
  have bytes : len * itemSize % 2 ^ 64 = len * itemSize := by
    apply Nat.mod_eq_of_lt
    unfold fpageIdRange pageSize at last
    omega
  simp only [MmapArray.get, onFile.layout, bind, Except.bind, pure, Except.pure, MmapArray.offsetOf_eq small,
    Nat.mul_comm itemSize len, bytes]
  split_ifs with short
  · refine ⟨_, spans_single positive onFile.fits some short, ?_⟩
    rw [Nat.mul_comm, Request.read, if_neg (Nat.mul_ne_zero positive.ne' some.ne')]
  · have spans := spans_more positive onFile.fits (Nat.not_lt.mp short) some
    refine ⟨_, spans, ?_⟩
    have start (n : ℕ) : fileOffset itemSize n =
        n / (pageSize / itemSize) * pageSize + n % (pageSize / itemSize) * itemSize := by
      rw [fileOffset, objNumPerPage_eq]
    have ends := spans.last
    have page := Nat.div_mul_le_self (fileOffset itemSize (idx + len - 1)) pageSize
    rw [Nat.add_mul] at ends
    rw [start (len - _)] at ends ⊢
    rw [Nat.mod_eq_of_lt (by unfold fpageIdRange pageSize at *; omega), Request.read, if_neg (by omega)]

end layout

section decode

variable {R : Type} {mgr : BufferPoolManager R} {frames : List ℕ}

theorem blockIn_page {m : ℕ} (here : frames[k]? = some m) {fileOffset : ℕ} :
    (mgr.blockIn fd fileOffset blockSize frames).page k =
      .ok (mgr.blockPage (pageAt fd fileOffset k) m (entryAt fileOffset k)) := by
  have slot : (mgr.blockIn fd fileOffset blockSize frames).slots[k]? =
      some (some (mgr.blockPage (pageAt fd fileOffset k) m (entryAt fileOffset k))) := by
    rw [blockIn, List.getElem?_map, framePages, List.getElem?_mapIdx, here]
    rfl
  rw [BufferBlock.page, slot]

/-- `DecodeWithPTE` finds an item in the frame of its page. -/
theorem decode_items (positive : 0 < itemSize) (fits : itemSize ≤ pageSize)
    (spans : Spans itemSize idx len blockSize) (pages : frames.length = pageCount (fileOffset itemSize idx) blockSize)
    (inside : j < len) : ∃ k m r, frames[k]? = some m ∧ r + itemSize ≤ pageSize ∧
      (fileOffset itemSize idx / pageSize + k) * pageSize + r = fileOffset itemSize (idx + j) ∧
      (mgr.blockIn fd (fileOffset itemSize idx) blockSize frames).decodeWithPTE itemSize j =
        .ok (mgr.frameAddress (mgr.poolOf (pageAt fd (fileOffset itemSize idx) k)) m + r,
          some ⟨mgr.poolOf (pageAt fd (fileOffset itemSize idx) k), m⟩) := by
  have count := objNumPerPage_pos positive fits
  have place := Nat.mod_lt idx count
  have rest := restFirstPage_div positive fits idx
  have split := Nat.div_add_mod' (fileOffset itemSize idx) pageSize
  have reached := spans.reaches j inside
  have mono := fileOffset_le_add positive fits idx j
  have nonempty : 0 < blockSize := by omega
  have within (k : ℕ)
      (before : (fileOffset itemSize idx / pageSize + k) * pageSize ≤ fileOffset itemSize (idx + j)) :
      k < frames.length := by
    have last : (fileOffset itemSize idx / pageSize + k) ≤ (fileOffset itemSize idx + blockSize - 1) / pageSize := by
      apply (Nat.le_div_iff_mul_le (by decide)).mpr
      omega
    rw [pages, Gbp.pageCount, if_neg nonempty.ne']
    omega
  have number : (mgr.blockIn fd (fileOffset itemSize idx) blockSize frames).pageNum = frames.length := by
    rw [BufferBlock.pageNum, blockIn, List.length_map, length_framePages]
  have zero : 0 < frames.length := within 0 (by rw [Nat.add_zero]; omega)
  have first : (mgr.blockIn fd (fileOffset itemSize idx) blockSize frames).page 0 =
      .ok ⟨mgr.frameAddress (mgr.poolOf (pageAt fd (fileOffset itemSize idx) 0)) frames[0] +
          fileOffset itemSize idx % pageSize,
        ⟨mgr.poolOf (pageAt fd (fileOffset itemSize idx) 0), frames[0]⟩, false⟩ :=
    blockIn_page (List.getElem?_eq_getElem zero)
  have entry := @frameAddress_add_mod _ mgr frames[0] (mgr.poolOf (pageAt fd (fileOffset itemSize idx) 0)) _
    (Nat.mod_lt (fileOffset itemSize idx) (show 0 < pageSize by decide))
  rcases Nat.lt_or_ge j (objNumPerPage itemSize - idx % objNumPerPage itemSize) with early | later
  · -- An item of the first page, from where the block starts.
    have item := @fileOffset_add_same itemSize idx j (by omega)
    have room := @mod_add_mul_le itemSize idx j positive fits (by omega)
    refine ⟨0, frames[0], fileOffset itemSize idx % pageSize + j * itemSize, List.getElem?_eq_getElem zero, room,
      ?_, ?_⟩
    · rw [item, Nat.add_zero]
      omega
    · rw [BufferBlock.decodeWithPTE, number]
      rcases Nat.lt_or_ge frames.length 2 with few | more
      · obtain ⟨m, rfl⟩ := List.length_eq_one_iff.mp (show frames.length = 1 by omega)
        rw [if_pos few, ← Nat.add_assoc]
        rfl
      · rw [if_neg (Nat.not_lt.mpr more), first, ok_bind, entry, rest, ← Nat.add_assoc]
        rcases eq_or_ne j 0 with start | start
        · rw [if_pos start, start, Nat.zero_mul, Nat.add_zero]
          rfl
        · rw [if_neg start, if_pos early]
          rfl
  · -- An item of a later page, which is entered at its start.
    have item := @fileOffset_add_later itemSize idx j positive fits later
    have room := mod_mul_add_le positive fits (j - (objNumPerPage itemSize - idx % objNumPerPage itemSize))
    rw [← fileOffset_div positive fits] at item
    have before : (fileOffset itemSize idx / pageSize +
        ((j - (objNumPerPage itemSize - idx % objNumPerPage itemSize)) / objNumPerPage itemSize + 1)) * pageSize ≤
          fileOffset itemSize (idx + j) := by
      rw [item]
      exact Nat.le_add_right ..
    have page := within _ before
    have more : 2 ≤ frames.length := le_trans (Nat.le_add_left ..) (Nat.succ_le_of_lt page)
    obtain ⟨m, here⟩ : ∃ m, frames[(j - (objNumPerPage itemSize - idx % objNumPerPage itemSize)) /
        objNumPerPage itemSize + 1]? = some m := ⟨_, List.getElem?_eq_getElem page⟩
    have next := @blockIn_page blockSize _ fd _ mgr frames m here (fileOffset itemSize idx)
    have aligned (k : ℕ) : entryAt (fileOffset itemSize idx) (k + 1) = 0 := if_neg (Nat.succ_ne_zero k)
    rw [aligned, blockPage] at next
    refine ⟨_, m, _, here, room, item.symm, ?_⟩
    rw [BufferBlock.decodeWithPTE, number, if_neg (by omega), first, ok_bind, entry, rest, if_neg (by omega),
      if_neg (by omega), ← objNumPerPage_eq]
    dsimp only
    rw [next, ok_bind]
    dsimp only
    rw [Nat.add_zero]
    rfl

end decode

section contents

variable {item : List UInt8}

theorem length_itemOf : (itemOf content fd itemSize idx).length = itemSize := by
  rw [itemOf, List.length_map, List.length_range]

/-- An item reads as it was stored. -/
theorem itemOf_setItem (length : item.length = itemSize) :
    itemOf (setItem content fd itemSize idx item) fd itemSize idx = item := by
  apply List.ext_getElem
  · rw [length_itemOf, length]
  · intro i left right
    have small : i < itemSize := length ▸ right
    simp only [itemOf, List.getElem_map, List.getElem_range]
    rw [setItem, splice, if_pos ⟨rfl, Nat.le_add_right .., by omega⟩, Nat.add_sub_cancel_left,
      List.getD_eq_getElem _ _ right]

/-- The other items read as before. -/
theorem itemOf_setItem_of_ne (positive : 0 < itemSize) (fits : itemSize ≤ pageSize) (other : k ≠ idx) :
    itemOf (setItem content fd itemSize idx item) fd itemSize k = itemOf content fd itemSize k := by
  apply List.map_congr_left
  intro i member
  have small : i < itemSize := List.mem_range.mp member
  rw [setItem, splice, if_neg]
  rintro ⟨_, low, high⟩
  rcases Nat.lt_or_gt_of_ne other with before | after
  · have := fileOffset_add_le positive fits before
    omega
  · have := fileOffset_add_le positive fits after
    omega

theorem setItem_of_ne {fd' : ℕ} (other : fd' ≠ fd) :
    setItem content fd itemSize idx item fd' = content fd' := by
  funext i
  exact if_neg fun both => other both.1

/-- The bytes of an item after a part of it has been replaced. -/
def patch (item : List UInt8) (offsetInItem : ℕ) (val : List UInt8) : List UInt8 :=
  item.take offsetInItem ++ val ++ item.drop (offsetInItem + val.length)

theorem length_patch {item val : List UInt8} {offsetInItem : ℕ} (within : offsetInItem + val.length ≤ item.length) :
    (patch item offsetInItem val).length = item.length := by
  rw [patch, List.length_append, List.length_append, List.length_take, List.length_drop]
  omega

theorem getD_patch {item val : List UInt8} {offsetInItem x : ℕ}
    (within : offsetInItem + val.length ≤ item.length) : (patch item offsetInItem val).getD x 0 =
      if offsetInItem ≤ x ∧ x < offsetInItem + val.length then val.getD (x - offsetInItem) 0 else item.getD x 0 := by
  have front : (item.take offsetInItem).length = offsetInItem := by
    rw [List.length_take]
    omega
  have middle : (item.take offsetInItem ++ val).length = offsetInItem + val.length := by
    rw [List.length_append, front]
  simp only [patch, List.getD_eq_getElem?_getD]
  rcases Nat.lt_or_ge x (offsetInItem + val.length) with before | after
  · rw [List.getElem?_append_left (by omega)]
    rcases Nat.lt_or_ge x offsetInItem with early | late
    · rw [if_neg (by omega), List.getElem?_append_left (by omega), List.getElem?_take_of_lt early]
    · rw [if_pos ⟨late, before⟩, List.getElem?_append_right (by omega), front]
  · rw [if_neg (by omega), List.getElem?_append_right (by omega), middle, List.getElem?_drop,
      Nat.add_sub_cancel' after]

/-- To store a part of an item is to store the item with that part replaced. -/
theorem splice_part {offsetInItem : ℕ} {val : List UInt8} (within : offsetInItem + val.length ≤ itemSize) :
    splice content fd (fileOffset itemSize idx + offsetInItem) (val.getD · 0) val.length =
      setItem content fd itemSize idx (patch (itemOf content fd itemSize idx) offsetInItem val) := by
  funext fd' i
  rw [setItem, splice, splice]
  rcases eq_or_ne fd' fd with rfl | other
  · rw [getD_patch (within.trans_eq length_itemOf.symm)]
    rcases Nat.lt_or_ge i (fileOffset itemSize idx) with before | after
    · rw [if_neg (by omega), if_neg (by omega)]
    · obtain ⟨x, rfl⟩ := Nat.exists_eq_add_of_le after
      have old (small : x < itemSize) : (itemOf content fd' itemSize idx).getD x 0 =
          content fd' (fileOffset itemSize idx + x) := by
        rw [List.getD_eq_getElem _ _ (small.trans_eq length_itemOf.symm)]
        simp only [itemOf, List.getElem_map, List.getElem_range]
      rw [Nat.add_sub_cancel_left, Nat.add_sub_add_left]
      rcases Nat.lt_or_ge x itemSize with small | past
      · rw [if_pos (show _ ∧ _ ∧ _ from ⟨rfl, Nat.le_add_right .., by omega⟩), old small]
        apply if_congr ?_ rfl rfl
        constructor
        · rintro ⟨_, low, high⟩
          exact ⟨by omega, by omega⟩
        · rintro ⟨low, high⟩
          exact ⟨rfl, by omega, by omega⟩
      · rw [if_neg (by omega), if_neg (by omega)]
  · rw [if_neg fun both => other both.1, if_neg fun both => other both.1]

end contents

section blocks

variable {R : Type} {frames : List ℕ} {mgr : BufferPoolManager R} {page : Page} {m : ℕ}

/-- A store to a frame of the pool of a page. -/
theorem store_frame {i r : ℕ} (inside : m < mgr.poolSize) (small : r < pageSize) (same : mgr.poolOf page = i)
    (bytes : List UInt8) : mgr.store (mgr.frameAddress i m + r) bytes =
      mgr.setFrame page m (memcpy (mgr.frame page m) r (bytes.getD · 0) 0 bytes.length) := by
  have positive : 0 < mgr.poolSize := Nat.zero_lt_of_lt inside
  have frame : (mgr.frameAddress i m + r) / pageSize = i * mgr.poolSize + m := by
    rw [frameAddress, Nat.mul_comm, Nat.mul_add_div (by decide), Nat.div_eq_of_lt small, Nat.add_zero]
  have index : (i * mgr.poolSize + m) / mgr.poolSize = i := by
    rw [Nat.mul_comm, Nat.mul_add_div positive, Nat.div_eq_of_lt inside, Nat.add_zero]
  have within : (i * mgr.poolSize + m) % mgr.poolSize = m := by
    rw [Nat.mul_add_mod_self_right, Nat.mod_eq_of_lt inside]
  subst same
  rw [store, frame, index, within, frameAddress_add_mod small]
  rfl

variable [Replacer R] [LawfulReplacer R]

omit [Replacer R] [LawfulReplacer R] in
/-- Where an item of a block lies, and who has it pinned. -/
theorem Spans.pinned {s : Session R} {array : MmapArray} (spans : Spans itemSize idx len blockSize)
    (onFile : OnFile s.mgr array itemSize) (inside : idx + len ≤ array.size)
    (pages : frames.length = Gbp.pageCount (fileOffset itemSize idx) blockSize)
    (kept : s.mgr.Retains s.pins (blockPins array.fdGbp (fileOffset itemSize idx) frames)) (index : j < len) :
    ∃ m, let page : Page := ⟨array.fdGbp, fileOffset itemSize (idx + j) / pageSize⟩
      InFile s.mgr page ∧ (page, m) ∈ s.pins (s.mgr.poolOf page) ∧
      (s.mgr.blockIn array.fdGbp (fileOffset itemSize idx) blockSize frames).decodeWithPTE itemSize j =
        .ok (s.mgr.frameAddress (s.mgr.poolOf page) m + fileOffset itemSize (idx + j) % pageSize,
          some ⟨s.mgr.poolOf page, m⟩) := by
  obtain ⟨k, m, r, here, room, place, decoded⟩ := @decode_items itemSize idx len blockSize j array.fdGbp R s.mgr frames
    onFile.positive onFile.fits spans pages index
  have small : r < pageSize := by
    have := onFile.positive
    omega
  have number : fileOffset itemSize (idx + j) / pageSize = fileOffset itemSize idx / pageSize + k := by
    rw [← place, Nat.add_comm, Nat.add_mul_div_right _ _ (by decide), Nat.div_eq_of_lt small, Nat.zero_add]
  have offset : fileOffset itemSize (idx + j) % pageSize = r := by
    rw [← place, Nat.mul_add_mod_self_right, Nat.mod_eq_of_lt small]
  have within : k < Gbp.pageCount (fileOffset itemSize idx) blockSize := by
    rw [← pages]
    exact (List.getElem?_eq_some_iff.mp here).1
  refine ⟨m, ?_⟩
  rw [number, offset]
  exact ⟨spans.pagesIn onFile (Nat.zero_lt_of_lt index) inside k within, kept _ (mem_blockPins here), decoded⟩

/-- An item of a block is the item of the file. -/
theorem BufferPoolManager.LiveRun.load_item {s : Session R} {array : MmapArray} (run : LiveRun s)
    (onFile : OnFile s.mgr array itemSize) (inside : idx < array.size) {m : ℕ}
    (inFile : InFile s.mgr ⟨array.fdGbp, fileOffset itemSize idx / pageSize⟩)
    (pin : (⟨array.fdGbp, fileOffset itemSize idx / pageSize⟩, m) ∈
      s.pins (s.mgr.poolOf ⟨array.fdGbp, fileOffset itemSize idx / pageSize⟩)) (heap : Bytes) :
    s.mgr.load heap (s.mgr.frameAddress (s.mgr.poolOf ⟨array.fdGbp, fileOffset itemSize idx / pageSize⟩) m +
      fileOffset itemSize idx % pageSize) itemSize = itemOf s.content array.fdGbp itemSize idx := by
  obtain ⟨_, room⟩ := onFile.inRange inside
  apply List.map_congr_left
  intro i member
  have small : i < itemSize := List.mem_range.mp member
  rw [Nat.add_assoc, run.pinned_byte inFile pin (by omega) heap, position_piece]

omit [Replacer R] [LawfulReplacer R] in
/-- A store to a piece of a page that lies in the file changes no byte behind its end. -/
theorem BufferPoolManager.InRange.memcpy_past {start n i : ℕ} (range : InRange mgr fd start n)
    (behind : mgr.disk.getFileSizeFast fd ≤ (⟨fd, start / pageSize⟩ : Page).position i) (dst buf : Bytes) :
    memcpy dst (start % pageSize) buf 0 n i = dst i := by
  refine if_neg fun copied => ?_
  have position := position_piece fd start (i - start % pageSize)
  rw [Nat.add_sub_of_le copied.1] at position
  have within := range.inside
  rw [position] at behind
  omega

/-- A store to an item of a block is one to the item of the file. -/
theorem BufferPoolManager.LiveRun.store_item {s : Session R} {array : MmapArray} (run : LiveRun s)
    (onFile : OnFile s.mgr array itemSize) (inside : idx < array.size) {m : ℕ}
    (inFile : InFile s.mgr ⟨array.fdGbp, fileOffset itemSize idx / pageSize⟩)
    (pin : (⟨array.fdGbp, fileOffset itemSize idx / pageSize⟩, m) ∈
      s.pins (s.mgr.poolOf ⟨array.fdGbp, fileOffset itemSize idx / pageSize⟩)) {item : List UInt8}
    (length : item.length = itemSize) :
    LiveStep s ⟨(s.mgr.store (s.mgr.frameAddress (s.mgr.poolOf ⟨array.fdGbp, fileOffset itemSize idx / pageSize⟩) m +
          fileOffset itemSize idx % pageSize) item).setDirty
        ⟨s.mgr.poolOf ⟨array.fdGbp, fileOffset itemSize idx / pageSize⟩, m⟩,
      setItem s.content array.fdGbp itemSize idx item, s.pins⟩ := by
  obtain ⟨range, room⟩ := onFile.inRange inside
  obtain ⟨place, sound, _⟩ := run.holds
  have small : fileOffset itemSize idx % pageSize < pageSize := Nat.mod_lt _ (by decide)
  have here := sound.resident_of_pin inFile pin
  have stores := @Sound.stored_splice _ _ _ _ _ _ _ array.fdGbp (item.getD · 0) _ itemSize m 0 sound here room
  simp only [Nat.zero_add] at stores
  rw [store_frame (run.frame_lt inFile pin) small rfl, length, setItem, ← stores]
  exact .update inFile pin _ fun i _ behind => range.memcpy_past behind _ _

/-- An item of an array has been set, and nothing else. -/
structure Sets (content content' : Content) (fd itemSize idx : ℕ) (item : List UInt8) : Prop where
  items : ∀ k, itemOf content' fd itemSize k = if k = idx then item else itemOf content fd itemSize k
  files : ∀ fd' ≠ fd, content' fd' = content fd'

theorem sets_setItem {item : List UInt8} (positive : 0 < itemSize) (fits : itemSize ≤ pageSize)
    (length : item.length = itemSize) :
    Sets content (setItem content fd itemSize idx item) fd itemSize idx item where
  items k := by
    rcases eq_or_ne k idx with rfl | other
    · rw [if_pos rfl, itemOf_setItem length]
    · rw [if_neg other, itemOf_setItem_of_ne positive fits other]
  files fd' other := setItem_of_ne other

/-- An item of a block as a program sees it: `Ref` reads the item of the file, and `UpdateContent` sets it. -/
structure ShowsItem (s : Session R) (fd : ℕ) (block : BufferBlock) (itemSize j idx : ℕ) : Prop where
  ref : ∀ heap, s.mgr.ref heap block itemSize j = .ok (itemOf s.content fd itemSize idx)
  update : ∀ cb heap, (∀ item : List UInt8, item.length = itemSize → (cb item).length = itemSize) →
    ∃ mgr' content', s.mgr.updateContent cb heap block itemSize j = .ok mgr' ∧ SameShape s.mgr mgr' ∧
      LiveStep s ⟨mgr', content', s.pins⟩ ∧
        Sets s.content content' fd itemSize idx (cb (itemOf s.content fd itemSize idx))

theorem BufferPoolManager.LiveRun.showsItem {s : Session R} {array : MmapArray} (run : LiveRun s)
    (onFile : OnFile s.mgr array itemSize) (spans : Spans itemSize idx len blockSize) (inside : idx + len ≤ array.size)
    (pages : frames.length = pageCount (fileOffset itemSize idx) blockSize)
    (kept : s.mgr.Retains s.pins (blockPins array.fdGbp (fileOffset itemSize idx) frames)) (index : j < len) :
    ShowsItem s array.fdGbp (s.mgr.blockIn array.fdGbp (fileOffset itemSize idx) blockSize frames) itemSize j
      (idx + j) := by
  obtain ⟨m, inFile, pin, decoded⟩ := spans.pinned onFile inside pages kept index
  have loaded := run.load_item onFile (show idx + j < array.size by omega) inFile pin
  constructor
  · intro heap
    rw [BufferPoolManager.ref, decoded, ok_bind]
    exact congrArg Except.ok (loaded heap)
  · intro cb heap keeps
    have length : (cb (itemOf s.content array.fdGbp itemSize (idx + j))).length = itemSize := keeps _ length_itemOf
    refine ⟨_, _, ?_, ?_, run.store_item onFile (by omega) inFile pin length,
      sets_setItem onFile.positive onFile.fits length⟩
    · rw [updateContent, decoded, ok_bind]
      dsimp only
      rw [loaded heap]
      rfl
    · exact ⟨rfl, rfl, .refl _⟩

/-- Whatever a program does with the manager and its files, any block that `get` returns for some items of an
array shows them as they are, until it is freed: `Ref` reads them, and `UpdateContent` sets one and leaves the
others alone. -/
theorem items_stay_live {s : Session R} {array : MmapArray} (run : LiveRun s) (onFile : OnFile s.mgr array itemSize)
    (some : 0 < len) (inside : idx + len ≤ array.size) (counts : s.mgr.CountsBelow s.pins) :
    ∃ offset size, array.get idx len = .ok (.getBlockSync offset size array.fdGbp) ∧
      (s.mgr.FramesFor s.pins (itemPages array.fdGbp itemSize idx len) →
        ∃ block mgr', Returns (fun fuel => s.mgr.getBlockSync fuel offset size array.fdGbp) (block, mgr')) ∧
      ∀ block mgr', Returns (fun fuel => s.mgr.getBlockSync fuel offset size array.fdGbp) (block, mgr') →
        ∃ taken, taken.map Prod.fst = itemPages array.fdGbp itemSize idx len ∧ SameShape s.mgr mgr' ∧
        LiveRun ⟨mgr', s.content, s.mgr.hold s.pins taken⟩ ∧
        ∀ s', Later ⟨mgr', s.content, s.mgr.hold s.pins taken⟩ s' → s'.mgr.Retains s'.pins taken →
          OnFile s'.mgr array itemSize → ∀ j < len, ShowsItem s' array.fdGbp block itemSize j (idx + j) := by
  obtain ⟨size, spans, asked⟩ := onFile.getItems some inside
  have nonempty : 0 < size := by
    have reached := spans.reaches 0 some
    have := onFile.positive
    rw [Nat.add_zero] at reached
    omega
  have count := spans.pageCount onFile.positive onFile.fits some
  have pagesIn := spans.pagesIn onFile some inside
  refine ⟨_, size, asked, fun frames => ?_, fun block mgr' ran => ?_⟩
  · rw [itemPages, ← count] at frames
    exact run.exists_getBlockSync nonempty pagesIn counts frames
  · obtain ⟨frames, pages, shape, rfl, held⟩ := run.gotBlockSync nonempty pagesIn counts ran
    refine ⟨blockPins array.fdGbp (fileOffset itemSize idx) frames, ?_, shape, held, ?_⟩
    · rw [blockPins_pages, pages, itemPages, count]
    · intro s' later kept onFile' j index
      obtain ⟨partitioner, poolSize⟩ := held.fixed later
      rw [← blockIn_congr (partitioner.trans shape.partitioner) (poolSize.trans shape.poolSize)]
      exact (held.later later).showsItem onFile' spans inside pages kept index

/-- Items of 12 bytes in the file of two pages; item 341 is the first one of its second page. -/
def twelveBytes : MmapArray := arrayOn 0 "items" false 5000 12 4096

theorem twelveBytes_onFile : OnFile twoPoolsOpen.mgr twelveBytes 12 :=
  onFile_arrayOn ⟨by decide, rfl, by decide, by decide⟩ (by decide) (by decide) "items" false 4096

theorem twelveBytes_run : LiveRun twoPoolsOpen := .init (.init _ _ _ _)

theorem twelveBytes_frames : twoPoolsOpen.mgr.FramesFor twoPoolsOpen.pins (itemPages 0 12 340 2) := by
  have pages : itemPages 0 12 340 2 = [⟨0, 0⟩, ⟨0, 1⟩] := by decide
  rw [pages]
  exact twoPoolsOpen_frames

/-- The second of two items of a block, before and after `UpdateContent` has set it. -/
theorem items_stay_live_twelveBytes : ∃ offset size block mgr' mgr'',
    twelveBytes.get 340 2 = .ok (.getBlockSync offset size 0) ∧
      Returns (fun fuel => twoPools.getBlockSync fuel offset size 0) (block, mgr') ∧
      (∀ heap, mgr'.ref heap block 12 1 = .ok (List.replicate 12 0)) ∧
      mgr'.updateContent (fun _ => List.replicate 12 7) (fun _ => 0) block 12 1 = .ok mgr'' ∧
      ∀ heap, mgr''.ref heap block 12 1 = .ok (List.replicate 12 7) ∧
        mgr''.ref heap block 12 0 = .ok (List.replicate 12 0) := by
  obtain ⟨offset, size, asked, exist, blocks⟩ :=
    @items_stay_live 12 340 2 _ _ _ _ _ twelveBytes_run twelveBytes_onFile (by decide) (by decide) twoPoolsOpen_counts
  obtain ⟨block, mgr', returned⟩ := exist twelveBytes_frames
  obtain ⟨taken, _, shape, _, shows⟩ := blocks block mgr' returned
  have kept : mgr'.Retains (twoPoolsOpen.mgr.hold twoPoolsOpen.pins taken) taken := by
    intro pin member
    rw [shape.poolOf]
    exact retains_hold _ _ _ pin member
  have shown := shows _ .refl kept (twelveBytes_onFile.shape shape) 1 (by decide)
  obtain ⟨mgr'', content', updated, same, step, sets⟩ := shown.update (fun _ => List.replicate 12 7) (fun _ => 0)
    fun _ _ => List.length_replicate
  have zeros (k : ℕ) : itemOf twoPoolsOpen.content 0 12 k = List.replicate 12 0 := List.map_const' ..
  have kept' : mgr''.Retains (twoPoolsOpen.mgr.hold twoPoolsOpen.pins taken) taken := by
    intro pin member
    rw [same.poolOf]
    exact kept pin member
  have after := shows _ (.single step) kept' ((twelveBytes_onFile.shape shape).shape same)
  refine ⟨offset, size, block, mgr', mgr'', asked, returned, fun heap => ?_, updated, fun heap => ⟨?_, ?_⟩⟩
  · rw [← zeros (340 + 1)]
    exact shown.ref heap
  · exact ((after 1 (by decide)).ref heap).trans (congrArg Except.ok (sets.items (340 + 1)))
  · refine ((after 0 (by decide)).ref heap).trans (congrArg Except.ok ((sets.items (340 + 0)).trans ?_))
    exact zeros (340 + 0)

omit [LawfulReplacer R] in
/-- A store within one page returns once the page can be fetched. -/
theorem BufferPoolManager.setBlock_of_fetched {mid : BufferPoolManager R} {start n : ℕ} (positive : 0 < n)
    (inPage : start % pageSize + n ≤ pageSize) (bound : start < fpageIdRange * pageSize) (buf : Bytes)
    (fetched : Returns (fun fuel => mgr.fetchPageSync fuel ⟨fd, start / pageSize⟩) (m, mid)) :
    Returns (fun fuel => mgr.setBlock fuel buf start n fd false)
      ((mid.setFrame ⟨fd, start / pageSize⟩ m (memcpy (mid.frame ⟨fd, start / pageSize⟩ m) (start % pageSize) buf 0
        n)).decRefCount ⟨fd, start / pageSize⟩ m true) := by
  obtain ⟨least, fetched⟩ := fetched
  have id : fpageIdOf start = start / pageSize :=
    Nat.mod_eq_of_lt ((Nat.div_lt_iff_lt_mul (by decide)).mpr bound)
  have whole : objectSize (start % pageSize) n = n := if_neg (by omega)
  refine ⟨least + 2, fun fuel enough => ?_⟩
  obtain ⟨rest, rfl⟩ : ∃ rest, fuel = rest + 2 := ⟨fuel - 2, by omega⟩
  simp only [BufferPoolManager.setBlock, blockLoop, if_neg (Nat.pos_iff_ne_zero.mp positive), id, setBlockBody,
    fetched (rest + 1) (by omega), ok_bind, whole, Bool.false_eq_true, if_false, pure_bind, Nat.sub_self, if_true]

/-- `SetBlock` within a page that returned has stored the bytes in the file. -/
theorem BufferPoolManager.LiveRun.setBlock {s : Session R} {mgr' : BufferPoolManager R} {start n : ℕ} {buf : Bytes}
    (run : LiveRun s) (range : InRange s.mgr fd start n) (inPage : start % pageSize + n ≤ pageSize)
    (counts : s.mgr.CountsBelow s.pins)
    (ran : Returns (fun fuel => s.mgr.setBlock fuel buf start n fd false) mgr') :
    SameShape s.mgr mgr' ∧ Later s ⟨mgr', splice s.content fd start buf n, s.pins⟩ := by
  rcases Nat.eq_zero_or_pos n with rfl | some
  · have nothing : Returns (fun fuel => s.mgr.setBlock fuel buf start 0 fd false) s.mgr :=
      (@Returns.shift _ _ 1 _ (fun _ => .ok s.mgr) _ fun fuel => by simp [BufferPoolManager.setBlock, blockLoop]).mpr
        .const
    cases nothing.unique ran
    rw [splice_zero]
    exact ⟨.refl _, .refl⟩
  · have inFile : InFile s.mgr ⟨fd, start / pageSize⟩ := range.page some
    have within := range.inside
    obtain ⟨m, mid, fetched, rfl⟩ := setBlock_inPage some inPage (by have := range.bound; omega) ran
    have room (m : ℕ) : Room (s.pins (s.mgr.poolOf ⟨fd, start / pageSize⟩)) m := by
      have few := counts _ (s.mgr.poolOf_lt ⟨fd, start / pageSize⟩) m
      unfold Room
      omega
    have run : LiveRun ⟨s.mgr, s.content, s.pins⟩ := run
    obtain ⟨shape, step⟩ := run.pinned inFile room fetched
    set pins := update s.pins (s.mgr.poolOf ⟨fd, start / pageSize⟩)
      ((⟨fd, start / pageSize⟩, m) :: s.pins (s.mgr.poolOf ⟨fd, start / pageSize⟩)) with pins_eq
    have pin : (⟨fd, start / pageSize⟩, m) ∈ pins (mid.poolOf ⟨fd, start / pageSize⟩) := by
      rw [shape.poolOf, pins_eq, update_self]
      exact List.mem_cons_self
    obtain ⟨place, sound, _⟩ := LiveRun.holds (run.step step)
    have stores := @Sound.stored_splice _ _ _ _ _ _ _ fd buf start n m 0 sound
      (sound.resident_of_pin (shape.inFile inFile) pin) inPage
    simp only [Nat.zero_add] at stores
    have past (i : ℕ) (_ : i < pageSize)
        (behind : mid.disk.getFileSizeFast fd ≤ (⟨fd, start / pageSize⟩ : Page).position i) :
        memcpy (mid.frame ⟨fd, start / pageSize⟩ m) (start % pageSize) buf 0 n i =
          mid.frame ⟨fd, start / pageSize⟩ m i := by
      have same : mid.disk.getFileSizeFast fd = s.mgr.disk.getFileSizeFast fd := shape.handles.size fd
      rw [same] at behind
      exact range.memcpy_past behind _ _
    have writes := LiveStep.session (.write (s := ⟨mid, s.content, pins⟩) (shape.inFile inFile) pin _ past)
    -- The pin that the fetch took is the one that `DecRefCount` gives back.
    dsimp only at writes
    rw [shape.poolOf, pins_eq, update_self, update_idem, List.erase_cons_head, update_eq_self, stores] at writes
    exact ⟨shape.trans ⟨rfl, rfl, .refl _⟩, (Relation.ReflTransGen.single step).tail writes⟩

/-- `set_partial` sets an item wherever it returns, and it returns where the page of the item can be pinned. -/
theorem set_partial_sets_item {s : Session R} {array : MmapArray} {offsetInItem : ℕ} {val : List UInt8}
    (run : LiveRun s) (onFile : OnFile s.mgr array itemSize) (inside : idx < array.size)
    (within : offsetInItem + val.length ≤ itemSize) (counts : s.mgr.CountsBelow s.pins) : ∃ start,
      array.setPartial idx offsetInItem val = .ok (.setBlock val start array.fdGbp) ∧
      (s.mgr.Fetchable s.pins ⟨array.fdGbp, fileOffset itemSize idx / pageSize⟩ →
        ∃ mgr', Returns (fun fuel => s.mgr.setBlock fuel (val.getD · 0) start val.length array.fdGbp false) mgr') ∧
      ∀ mgr', Returns (fun fuel => s.mgr.setBlock fuel (val.getD · 0) start val.length array.fdGbp false) mgr' →
        ∃ content', Later s ⟨mgr', content', s.pins⟩ ∧ OnFile mgr' array itemSize ∧
          Sets s.content content' array.fdGbp itemSize idx
            (patch (itemOf s.content array.fdGbp itemSize idx) offsetInItem val) := by
  obtain ⟨range, room⟩ := onFile.inRange inside
  have part : (fileOffset itemSize idx + offsetInItem) % pageSize + val.length ≤ pageSize := by
    rcases Nat.eq_zero_or_pos val.length with none | some
    · rw [none]
      exact (Nat.mod_lt _ (by decide)).le
    · rw [← Nat.mod_add_mod, Nat.mod_eq_of_lt (by omega)]
      omega
  have piece : InRange s.mgr array.fdGbp (fileOffset itemSize idx + offsetInItem) val.length :=
    ⟨range.handle, range.valid, range.small, by have := range.inside; omega⟩
  refine ⟨_, MmapArray.setPartial_eq onFile.layout (onFile.small inside) within, fun able => ?_, fun mgr' ran => ?_⟩
  · rcases Nat.eq_zero_or_pos val.length with none | some
    · rw [none]
      exact ⟨s.mgr, (@Returns.shift _ _ 1 _ (fun _ => .ok s.mgr) _ fun fuel => by
        simp [BufferPoolManager.setBlock, blockLoop]).mpr .const⟩
    · have split := Nat.div_add_mod' (fileOffset itemSize idx) pageSize
      have page : (fileOffset itemSize idx + offsetInItem) / pageSize = fileOffset itemSize idx / pageSize := by
        rw [← split, Nat.add_assoc, Nat.add_comm, Nat.add_mul_div_right _ _ (by decide), Nat.div_eq_of_lt (by omega)]
        rw [Nat.zero_add, split]
      rw [← page] at able
      obtain ⟨m, mid, fetched⟩ := run.pin (piece.firstPage some) able
      have bound := (Nat.lt_add_of_pos_right some).trans_le piece.bound
      exact ⟨_, setBlock_of_fetched some part bound (val.getD · 0) fetched⟩
  · obtain ⟨shape, later⟩ := run.setBlock piece part counts ran
    rw [splice_part within] at later
    have length : (patch (itemOf s.content array.fdGbp itemSize idx) offsetInItem val).length = itemSize :=
      (length_patch (within.trans_eq length_itemOf.symm)).trans length_itemOf
    exact ⟨_, later, onFile.shape shape, sets_setItem onFile.positive onFile.fits length⟩

/-- A pinned page can be pinned again. -/
theorem BufferPoolManager.LiveRun.fetchable_of_pin {s : Session R} (run : LiveRun s) (inFile : InFile s.mgr page)
    (pin : (page, m) ∈ s.pins (s.mgr.poolOf page)) : s.mgr.Fetchable s.pins page := by
  obtain ⟨place, sound, _⟩ := run.holds
  exact Or.inr ⟨m, (sound.inv _ (s.mgr.poolOf_lt page)).word?_resident (sound.resident_of_pin inFile pin)⟩

/-- Four bytes in the middle of the first item of the second page, while a block keeps the only frames of both
pools. -/
theorem set_partial_sets_item_twelveBytes : ∃ offset size block mgr start mgr',
    Returns (fun fuel => twoPools.getBlockSync fuel offset size 0) (block, mgr) ∧
      twelveBytes.setPartial 341 4 [1, 2, 3, 4] = .ok (.setBlock [1, 2, 3, 4] start 0) ∧
      Returns (fun fuel => mgr.setBlock fuel ([1, 2, 3, 4].getD · 0) start 4 0 false) mgr' ∧
      ∀ heap, mgr'.ref heap block 12 1 = .ok [0, 0, 0, 0, 1, 2, 3, 4, 0, 0, 0, 0] := by
  obtain ⟨offset, size, asked, exist, blocks⟩ :=
    @items_stay_live 12 340 2 _ _ _ _ _ twelveBytes_run twelveBytes_onFile (by decide) (by decide) twoPoolsOpen_counts
  obtain ⟨block, mgr, returned⟩ := exist twelveBytes_frames
  obtain ⟨taken, covered, shape, run, shows⟩ := blocks block mgr returned
  have pages : itemPages 0 12 340 2 = [⟨0, 0⟩, ⟨0, 1⟩] := by decide
  change taken.map Prod.fst = itemPages 0 12 340 2 at covered
  rw [pages] at covered
  set s : Session SieveReplacer_v3 := ⟨mgr, twoPoolsOpen.content, twoPoolsOpen.mgr.hold twoPoolsOpen.pins taken⟩
  have kept : mgr.Retains s.pins taken := by
    intro pin member
    rw [shape.poolOf]
    exact retains_hold _ _ _ pin member
  have counts : s.mgr.CountsBelow s.pins := by
    intro i _ m
    have two : taken.length = 2 := by rw [← List.length_map (f := Prod.fst), covered]; rfl
    have few := @length_hold _ twoPoolsOpen.mgr twoPoolsOpen.pins taken i
    have none : (twoPoolsOpen.pins i).length = 0 := rfl
    have held := @List.countP_le_length _ (fun pin : Page × ℕ => decide (pin.2 = m)) (s.pins i)
    have share := @List.countP_le_length _ (fun pin : Page × ℕ => decide (twoPoolsOpen.mgr.poolOf pin.1 = i)) taken
    change (s.pins i).length = _ at few
    omega
  have onFile : OnFile s.mgr twelveBytes 12 := twelveBytes_onFile.shape shape
  obtain ⟨start, request, able, sets⟩ :=
    @set_partial_sets_item 12 341 _ _ _ s twelveBytes 4 [1, 2, 3, 4] run onFile (by decide) (by decide) counts
  have second : fileOffset 12 341 / pageSize = 1 := by decide
  have before : InFile twoPoolsOpen.mgr ⟨0, 1⟩ := ⟨by decide, rfl, by decide, by decide⟩
  have inFile : InFile s.mgr ⟨0, 1⟩ := shape.inFile before
  obtain ⟨m, member⟩ : ∃ m, ((⟨0, 1⟩ : Page), m) ∈ taken := by
    have member : (⟨0, 1⟩ : Page) ∈ taken.map Prod.fst := by simp [covered]
    obtain ⟨⟨page, m⟩, member, rfl⟩ := List.mem_map.mp member
    exact ⟨m, member⟩
  rw [second] at able
  obtain ⟨mgr', stored⟩ := able (run.fetchable_of_pin inFile (kept _ member))
  obtain ⟨content', later, onFile', items⟩ := sets mgr' stored
  refine ⟨offset, size, block, mgr, start, mgr', returned, request, stored, fun heap => ?_⟩
  have kept' : mgr'.Retains s.pins taken := by
    obtain ⟨partitioner, _⟩ := run.fixed later
    intro pin member
    have here := kept pin member
    rwa [BufferPoolManager.poolOf, ← partitioner] at here
  have shown := (shows _ later kept' onFile' 1 (by decide)).ref heap
  have zeros : itemOf twoPoolsOpen.content 0 12 341 = List.replicate 12 0 := List.map_const' ..
  have item := items.items 341
  rw [if_pos rfl] at item
  refine shown.trans (congrArg Except.ok (item.trans ?_))
  change patch (itemOf twoPoolsOpen.content 0 12 341) 4 [1, 2, 3, 4] = _
  rw [zeros]
  rfl

end blocks

end Gbp
