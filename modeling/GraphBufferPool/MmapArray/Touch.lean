import GraphBufferPool.Manager.BlockSync
import GraphBufferPool.Manager.Reopen
import GraphBufferPool.MmapArray.Views

/-! # `touch`

`touch` closes the array, copies its file under another name and opens the array again, on the copy. It does so with
items of one byte, whatever they were before, so that the array has as many items as the file has bytes. The frames of
the closed file stay orphans; the items of the copy can be read, again and again, where the pools have other frames for
them.
-/

namespace Gbp

open Function LawfulReplacer DiskManager BufferPoolManager BufferPool Fuel Machine Refill Relation

section model

variable {R : Type} [Replacer R]

/-- `copy_file` of the file behind a handle. -/
def DiskManager.copyFile (disk : DiskManager) (fd : ℕ) : Except Stop OsFile :=
  if bound : (disk.file fd).length < 2 ^ 64 then .ok ⟨disk.file fd, bound⟩ else .error .badHandle

/-- What giving a reference back does to the entry. -/
def BufferPoolManager.giveBack (mgr : BufferPoolManager R) (release : Release) : BufferPoolManager R :=
  let pte := match release with | .decRefCount pte | .erase pte => pte
  mgr.setPool pte.pool ((mgr.pool pte.pool).decRefCount pte.frame false)

namespace MmapArray

/-- `close` of an array of the manager. -/
def closeIn (array : MmapArray) (mgr : BufferPoolManager R) : Except Stop (MmapArray × BufferPoolManager R) :=
  if array.fdGbp ≠ invalidFileHandle then do
    return ({ array with fdGbp := invalidFileHandle }, ← mgr.closeFile array.fdGbp)
  else return (array, mgr)

/-- `open` of an array of the manager, on a file that is there. -/
def openIn (array : MmapArray) (filename : String) (readOnly : Bool) (file : OsFile) (itemSize chunkSize : ℕ)
    (mgr : BufferPoolManager R) : Except Stop (MmapArray × BufferPoolManager R) := do
  let (_, mgr) ← array.closeIn mgr
  let (array, _) := array.open ⟨mgr.disk.files.length, []⟩ filename readOnly (some file.1.length) itemSize chunkSize
  let (_, mgr) ← mgr.openFile file
  return (array, mgr)

/-- `touch`: the item size and the chunk size are the defaults of `open`. -/
def touch (array : MmapArray) (filename : String) (mgr : BufferPoolManager R) :
    Except Stop (MmapArray × BufferPoolManager R) := do
  let fd := array.fdGbp
  let (array, mgr) ← array.closeIn mgr
  let copy ← mgr.disk.copyFile fd
  array.openIn filename false copy 1 4096 mgr

/-- `get(idx, 1)` returns a block of these bytes. -/
def Decodes (mgr : BufferPoolManager R) (array : MmapArray) (idx : ℕ) (item : List UInt8) : Prop :=
  ∃ offset size fd block mgr', array.get idx 1 = .ok (.getBlockSync offset size fd) ∧
    Returns (fun fuel => mgr.getBlockSync fuel offset size fd) (block, mgr') ∧
      ∀ heap, mgr'.blockBytes heap block = item

/-- An item is read and its block freed. -/
inductive ReadStep (array : MmapArray) : BufferPoolManager R → BufferPoolManager R → Prop
  | get {mgr mgr' : BufferPoolManager R} {idx offset size fd : ℕ} {block freed : BufferBlock} {releases : List Release}
      (inside : idx < array.size) (asked : array.get idx 1 = .ok (.getBlockSync offset size fd))
      (ran : Returns (fun fuel => mgr.getBlockSync fuel offset size fd) (block, mgr'))
      (free : block.free = .ok (releases, freed)) : ReadStep array mgr (releases.foldl giveBack mgr')

/-- `touch` returns and keeps the size and the items of the array, in whatever order they are read afterwards. -/
def TouchKeeps (mgr : BufferPoolManager R) (array : MmapArray) : Prop :=
  ∀ filename, ∃ array' mgr', ∃ items : ℕ → List UInt8, array.touch filename mgr = .ok (array', mgr') ∧
    array'.size = array.size ∧
    (∀ idx < array.size, Decodes mgr array idx (items idx)) ∧
      ∀ mgr'', ReflTransGen (ReadStep array') mgr' mgr'' → ∀ idx < array.size, Decodes mgr'' array' idx (items idx)

end MmapArray

/-- The states of a program after it has opened an array with items of at most a page: it may do anything that leaves
the file of the array open and as long as it is. -/
inductive ArrayRun : Session R → MmapArray → Prop
  | opened {s : Session R} {mgr' : BufferPoolManager R} {array : MmapArray} (before : ProgramRun s)
      (few : s.mgr.disk.files.length < 2 ^ 13) (filename : String) (readOnly : Bool) (file : OsFile)
      (small : file.1.length ≤ maxFileSize) {itemSize : ℕ} (positive : 0 < itemSize) (fits : itemSize ≤ pageSize)
      (ran : MmapArray.new.openIn filename readOnly file itemSize 4096 s.mgr = .ok (array, mgr')) :
      ArrayRun ⟨mgr', opened s.content s.mgr.disk.files.length file.1, s.pins⟩ array
  | step {s s' : Session R} {array : MmapArray} (before : ArrayRun s array) (step : ProgramStep s s')
      (valid : s'.mgr.disk.validFD array.fdGbp = true)
      (same : s'.mgr.disk.getFileSizeFast array.fdGbp = s.mgr.disk.getFileSizeFast array.fdGbp) : ArrayRun s' array

end model

section sizes

variable {fileSize itemSize idx : ℕ}

/-- The items of a file lie in it. -/
theorem fileOffset_add_le_of_lt (positive : 0 < itemSize) (fits : itemSize ≤ pageSize)
    (inside : idx < MmapArray.sizeOf fileSize (objNumPerPage itemSize) itemSize) :
    fileOffset itemSize idx + itemSize ≤ fileSize := by
  have split := Nat.div_add_mod' fileSize pageSize
  have room := mod_mul_add_le positive fits idx
  have count := objNumPerPage_pos positive fits
  have place := Nat.div_add_mod' idx (objNumPerPage itemSize)
  rw [fileOffset]
  rcases Nat.lt_or_ge (idx / objNumPerPage itemSize) (fileSize / pageSize) with whole | last
  · have pages := Nat.mul_le_mul_right pageSize (Nat.succ_le_of_lt whole)
    rw [Nat.succ_mul] at pages
    rw [Nat.add_assoc]
    exact (Nat.add_le_add_left room _).trans (pages.trans (Nat.div_mul_le_self ..))
  · have few : fileSize % pageSize / itemSize ≤ objNumPerPage itemSize := by
      rw [objNumPerPage_eq]
      exact Nat.div_le_div_right (Nat.mod_lt _ (by decide)).le
    rw [MmapArray.sizeOf] at inside
    have same : idx / objNumPerPage itemSize = fileSize / pageSize := by
      refine le_antisymm (Nat.lt_succ_iff.mp ((Nat.div_lt_iff_lt_mul count).mpr ?_)) last
      rw [Nat.succ_mul]
      omega
    rw [same] at place ⊢
    have here : idx % objNumPerPage itemSize < fileSize % pageSize / itemSize := by omega
    have bytes := (Nat.le_div_iff_mul_le positive).mp (Nat.succ_le_of_lt here)
    rw [Nat.succ_mul] at bytes
    omega

/-- An array has as many items as its file has bytes if the items are bytes. -/
theorem sizeOf_eq_iff (positive : 0 < itemSize) :
    MmapArray.sizeOf fileSize (objNumPerPage itemSize) itemSize = fileSize ↔
    fileSize = 0 ∨ itemSize = 1 := by
  have split := Nat.div_add_mod' fileSize pageSize
  rw [MmapArray.sizeOf, objNumPerPage_eq]
  constructor
  · intro same
    by_contra neither
    obtain ⟨nonempty, large⟩ := not_or.mp neither
    have two : 2 ≤ itemSize := by omega
    have page : pageSize / itemSize < pageSize := Nat.div_lt_self (by decide) two
    rcases Nat.eq_zero_or_pos (fileSize / pageSize) with none | some
    · rw [none, Nat.zero_mul, Nat.zero_add] at split same
      have fewer : fileSize % pageSize / itemSize < fileSize % pageSize := Nat.div_lt_self (by omega) two
      omega
    · have fewer := Nat.mul_lt_mul_of_pos_left page some
      have rest := Nat.div_le_self (fileSize % pageSize) itemSize
      omega
  · rintro (rfl | rfl)
    · simp
    · rw [Nat.div_one, Nat.div_one]
      exact split

theorem sizeOf_one (fileSize : ℕ) : MmapArray.sizeOf fileSize (objNumPerPage 1) 1 = fileSize :=
  (sizeOf_eq_iff Nat.one_pos).mpr (Or.inr rfl)

end sizes

variable {R : Type} [Replacer R] [LawfulReplacer R] {mgr mgr' : BufferPoolManager R} {array : MmapArray} {s : Session R}
  {K : ℕ → ℕ → Prop} {F : ℕ → Prop} {content : Content} {place : ℕ → ℕ → Place} {pins : ℕ → List (Page × ℕ)}
  {itemSize idx : ℕ}

/-- The array is open on a file of the manager, with items of that size. -/
structure OnFile (mgr : BufferPoolManager R) (array : MmapArray) (itemSize : ℕ) : Prop where
  range : InRange mgr array.fdGbp 0 0
  positive : 0 < itemSize
  fits : itemSize ≤ pageSize
  item : array.itemSize = some itemSize
  layout : array.layout = .ok (pageSize / itemSize, itemSize)
  size : array.size = MmapArray.sizeOf (mgr.disk.getFileSizeFast array.fdGbp) (objNumPerPage itemSize) itemSize

omit [Replacer R] [LawfulReplacer R] in
theorem OnFile.shape (onFile : OnFile mgr array itemSize) (shape : SameShape mgr mgr') : OnFile mgr' array itemSize :=
  { onFile with
    range := shape.inRange onFile.range
    size := by rw [onFile.size, shape.handles.size] }

omit [Replacer R] [LawfulReplacer R] in
/-- An item lies in the file, in one page. -/
theorem OnFile.inRange (onFile : OnFile mgr array itemSize) (inside : idx < array.size) :
    InRange mgr array.fdGbp (fileOffset itemSize idx) itemSize ∧
      fileOffset itemSize idx % pageSize + itemSize ≤ pageSize := by
  refine ⟨⟨onFile.range.handle, onFile.range.valid, onFile.range.small, ?_⟩, ?_⟩
  · exact fileOffset_add_le_of_lt onFile.positive onFile.fits (onFile.size ▸ inside)
  · rw [fileOffset_mod onFile.positive onFile.fits]
    exact mod_mul_add_le onFile.positive onFile.fits idx

omit [Replacer R] [LawfulReplacer R] in
theorem OnFile.small (onFile : OnFile mgr array itemSize) (inside : idx < array.size) :
    fileOffset itemSize idx + itemSize < 2 ^ 64 :=
  (onFile.inRange inside).1.bound.trans_lt (by decide)

omit [Replacer R] [LawfulReplacer R] in
theorem OnFile.get (onFile : OnFile mgr array itemSize) (inside : idx < array.size) :
    array.get idx 1 = .ok (.getBlockSync (fileOffset itemSize idx) itemSize array.fdGbp) :=
  MmapArray.get_one onFile.positive onFile.fits onFile.layout ((Nat.le_add_right ..).trans_lt (onFile.small inside))

/-- An array as `open` sets it up on a file of `fileSize` bytes. -/
def arrayOn (fd : ℕ) (filename : String) (readOnly : Bool) (fileSize itemSize chunkSize : ℕ) : MmapArray :=
  ⟨fd, filename, MmapArray.sizeOf fileSize (objNumPerPage itemSize) itemSize, readOnly, some chunkSize, some itemSize,
    some (objNumPerPage itemSize)⟩

omit [Replacer R] [LawfulReplacer R] in
theorem onFile_arrayOn {fd : ℕ} (range : InRange mgr fd 0 0) (positive : 0 < itemSize) (fits : itemSize ≤ pageSize)
    (filename : String) (readOnly : Bool) (chunkSize : ℕ) :
    OnFile mgr (arrayOn fd filename readOnly (mgr.disk.getFileSizeFast fd) itemSize chunkSize) itemSize := by
  have layout : (arrayOn fd filename readOnly (mgr.disk.getFileSizeFast fd) itemSize chunkSize).layout =
      if objNumPerPage itemSize = 0 then .error .divideByZero else .ok (objNumPerPage itemSize, itemSize) := rfl
  rw [if_neg (Nat.pos_iff_ne_zero.mp (objNumPerPage_pos positive fits)), objNumPerPage_eq] at layout
  exact ⟨range, positive, fits, rfl, layout, rfl⟩

omit [Replacer R] [LawfulReplacer R] in
/-- `open` of a closed array sets all its fields. -/
theorem openIn_closed {filename : String} {readOnly : Bool} {file : OsFile} {chunkSize : ℕ}
    (closed : array.fdGbp = invalidFileHandle) (few : mgr.disk.files.length < 2 ^ 32)
    (ran : mgr.openFile file = .ok (mgr.disk.files.length, mgr')) :
    array.openIn filename readOnly file itemSize chunkSize mgr =
      .ok (arrayOn mgr.disk.files.length filename readOnly file.1.length itemSize chunkSize, mgr') := by
  have handle : mgr.disk.files.length % 2 ^ 32 = mgr.disk.files.length := Nat.mod_eq_of_lt few
  simp only [MmapArray.openIn, MmapArray.closeIn, closed, ne_eq, not_true, if_false, pure_bind, ran, ok_bind,
    MmapArray.open, MmapArray.reset, MmapArray.close, FileLog.openFile, handle, reduceCtorEq, and_false]
  rfl

/-- What holds in every state of a run: the array is open on a file that is watched. -/
theorem ArrayRun.holds (run : ArrayRun s array) : ∃ itemSize K place, OnFile s.mgr array itemSize ∧
    Caches K (· = array.fdGbp) s.content s.mgr place s.pins := by
  induction run with
  | @opened s mgr' array before few filename readOnly file small itemSize positive fits ran =>
    obtain ⟨K, place, caches⟩ := before.caches
    obtain ⟨_, returned, opens⟩ := exists_openFile s.mgr file
    have set := @openIn_closed R s.mgr _ .new itemSize filename readOnly file 4096 rfl (few.trans (by decide)) returned
    cases set.symm.trans ran
    have size : mgr'.disk.getFileSizeFast s.mgr.disk.files.length = file.1.length := by
      rw [opens.disk, openFile_size, if_pos rfl]
    have valid : mgr'.disk.validFD s.mgr.disk.files.length = true := by rw [opens.disk, openFile_validFD, if_pos rfl]
    have range : InRange mgr' s.mgr.disk.files.length 0 0 := ⟨few, valid, size.trans_le small, Nat.zero_le _⟩
    refine ⟨itemSize, K, place, ?_, (caches.openFile opens).mono fun _ => Or.inr⟩
    rw [← size]
    exact onFile_arrayOn range positive fits filename readOnly 4096
  | step _ step valid same ih =>
    obtain ⟨itemSize, K, place, onFile, caches⟩ := ih
    obtain ⟨K', place', caches'⟩ := step.caches caches fun _ watched => watched ▸ same
    refine ⟨itemSize, K', place', { onFile with range := ?_, size := by rw [onFile.size, same] }, caches'⟩
    exact ⟨onFile.range.handle, valid, same.trans_le onFile.range.small, Nat.zero_le _⟩

/-- A step that changes no file. -/
theorem ArrayRun.session {s' : Session R} (run : ArrayRun s array) (step : SessionStep s s')
    (shape : SameShape s.mgr s'.mgr) : ArrayRun s' array := by
  obtain ⟨_, _, _, onFile, _⟩ := run.holds
  exact run.step (.session step) ((shape.handles.valid _).trans onFile.range.valid) (shape.handles.size _)

/-- A page is pinned. -/
theorem ArrayRun.visit (run : ArrayRun s array) {page : Page} (inFile : InFile s.mgr page)
    (room : ∀ m, Room (s.pins (s.mgr.poolOf page)) m) {m : ℕ}
    (ran : Returns (fun fuel => s.mgr.fetchPageSync fuel page) (m, mgr')) : SameShape s.mgr mgr' ∧
      ((page, m) : Page × ℕ) ∈ update s.pins (mgr'.poolOf page) ((page, m) :: s.pins (mgr'.poolOf page))
        (mgr'.poolOf page) ∧
        ArrayRun ⟨mgr', s.content, update s.pins (mgr'.poolOf page) ((page, m) :: s.pins (mgr'.poolOf page))⟩
          array := by
  obtain ⟨_, _, _, _, caches⟩ := run.holds
  obtain ⟨_, _, _, shape, _⟩ := caches.fetch inFile room ran
  rw [shape.poolOf, update_self]
  exact ⟨shape, List.mem_cons_self, run.session (.fetch inFile room ran) shape⟩

/-- `set_partial` is such a program. -/
theorem ArrayRun.setPartial {offsetInItem offset fd : ℕ} {val : List UInt8} (run : ArrayRun s array)
    (room : ∀ i < s.mgr.partitioner.numPartitions, ∀ m, Room (s.pins i) m) (inside : idx < array.size)
    (within : ∀ itemSize, array.itemSize = some itemSize → offsetInItem + val.length ≤ itemSize)
    (asked : array.setPartial idx offsetInItem val = .ok (.setBlock val offset fd))
    (ran : Returns (fun fuel => s.mgr.setBlock fuel (val.getD · 0) offset val.length fd false) mgr') :
    ∃ content, ArrayRun ⟨mgr', content, s.pins⟩ array := by
  obtain ⟨itemSize, _, _, onFile, _⟩ := run.holds
  have part := within itemSize onFile.item
  obtain ⟨range, fits⟩ := onFile.inRange inside
  cases (MmapArray.setPartial_eq onFile.layout (onFile.small inside) part).symm.trans asked
  rcases Nat.eq_zero_or_pos val.length with none | some
  · rw [none] at ran
    have nothing : Returns (fun fuel => s.mgr.setBlock fuel (val.getD · 0)
        (fileOffset itemSize idx + offsetInItem) 0 array.fdGbp false) s.mgr :=
      (@Returns.shift _ _ 1 _ (fun _ => .ok s.mgr) _ fun fuel =>
        by simp [BufferPoolManager.setBlock, blockLoop]).mpr .const
    cases nothing.unique ran
    exact ⟨s.content, run⟩
  · have inPage : (fileOffset itemSize idx + offsetInItem) % pageSize + val.length ≤ pageSize := by
      rw [← Nat.mod_add_mod, Nat.mod_eq_of_lt (by omega)]
      omega
    have piece : InRange s.mgr array.fdGbp (fileOffset itemSize idx + offsetInItem) val.length :=
      ⟨range.handle, range.valid, range.small, by have := range.inside; omega⟩
    have inFile := piece.firstPage some
    obtain ⟨m, mid, fetched, rfl⟩ := setBlock_inPage some inPage (by have := piece.bound; omega) ran
    obtain ⟨shape, pin, visit⟩ := run.visit inFile (room _ (s.mgr.poolOf_lt _)) fetched
    -- the bytes behind the end of the file stay as they are
    have past (i : ℕ) (_ : i < pageSize) (behind : mid.disk.getFileSizeFast array.fdGbp ≤
        (⟨array.fdGbp, (fileOffset itemSize idx + offsetInItem) / pageSize⟩ : Page).position i) :
        memcpy (mid.frame ⟨array.fdGbp, (fileOffset itemSize idx + offsetInItem) / pageSize⟩ m)
          ((fileOffset itemSize idx + offsetInItem) % pageSize) (val.getD · 0) 0 val.length i =
            mid.frame ⟨array.fdGbp, (fileOffset itemSize idx + offsetInItem) / pageSize⟩ m i := by
      refine if_neg fun copied => ?_
      have position := position_piece array.fdGbp (fileOffset itemSize idx + offsetInItem)
        (i - (fileOffset itemSize idx + offsetInItem) % pageSize)
      rw [Nat.add_sub_of_le copied.1] at position
      have ends := piece.inside
      rw [position, shape.handles.size] at behind
      omega
    have written := visit.session (.write (shape.inFile inFile) pin _ past) ⟨rfl, rfl, .refl _⟩
    dsimp only at written
    rw [update_self, update_idem, List.erase_cons_head, update_eq_self] at written
    exact ⟨_, written⟩

/-- Reading an item and freeing its block is such a program. -/
theorem ArrayRun.get {offset size fd : ℕ} {block freed : BufferBlock} {releases : List Release} (run : ArrayRun s array)
    (room : ∀ i < s.mgr.partitioner.numPartitions, ∀ m, Room (s.pins i) m) (inside : idx < array.size)
    (asked : array.get idx 1 = .ok (.getBlockSync offset size fd))
    (ran : Returns (fun fuel => s.mgr.getBlockSync fuel offset size fd) (block, mgr'))
    (free : block.free = .ok (releases, freed)) :
    ArrayRun ⟨releases.foldl giveBack mgr', s.content, s.pins⟩ array := by
  obtain ⟨itemSize, _, _, onFile, _⟩ := run.holds
  cases (onFile.get inside).symm.trans asked
  obtain ⟨range, fits⟩ := onFile.inRange inside
  have inFile := range.firstPage onFile.positive
  have bound := (Nat.lt_add_of_pos_right onFile.positive).trans_le range.bound
  obtain ⟨m, fetched, rfl⟩ := (getBlockSync_returns onFile.positive fits bound).mp ran
  rw [onePage_free onFile.positive] at free
  cases free
  obtain ⟨_, pin, visit⟩ := run.visit inFile (room _ (s.mgr.poolOf_lt _)) fetched
  have released := visit.session (.release pin false) ⟨rfl, rfl, .refl _⟩
  dsimp only at released
  rwa [update_self, update_idem, List.erase_cons_head, update_eq_self] at released

omit [LawfulReplacer R] in
/-- An item is what the frame of its page holds of it. -/
theorem OnFile.decodes_iff (onFile : OnFile mgr array itemSize) (inside : idx < array.size) {item : List UInt8} :
    MmapArray.Decodes mgr array idx item ↔ ∃ m mgr',
      Returns (fun fuel => mgr.fetchPageSync fuel ⟨array.fdGbp, fileOffset itemSize idx / pageSize⟩) (m, mgr') ∧
        ∀ heap, mgr'.blockBytes heap (mgr'.onePage ⟨array.fdGbp, fileOffset itemSize idx / pageSize⟩ m
          (fileOffset itemSize idx % pageSize) itemSize) = item := by
  obtain ⟨range, fits⟩ := onFile.inRange inside
  have bound : fileOffset itemSize idx < fpageIdRange * pageSize :=
    (Nat.lt_add_of_pos_right onFile.positive).trans_le range.bound
  constructor
  · rintro ⟨offset, size, fd, block, mgr', asked, ran, bytes⟩
    cases (onFile.get inside).symm.trans asked
    obtain ⟨m, fetched, rfl⟩ := (getBlockSync_returns onFile.positive fits bound).mp ran
    exact ⟨m, mgr', fetched, bytes⟩
  · rintro ⟨m, mgr', fetched, bytes⟩
    exact ⟨_, _, _, _, mgr', onFile.get inside, (getBlockSync_returns onFile.positive fits bound).mpr ⟨m, fetched, rfl⟩,
      bytes⟩

/-- The bytes of an item in a file. -/
def itemOf (content : Content) (fd itemSize idx : ℕ) : List UInt8 :=
  (List.range itemSize).map fun i => content fd (fileOffset itemSize idx + i)

omit [LawfulReplacer R] in
/-- The item is there if its page has the bytes of the file. -/
theorem OnFile.decodes (onFile : OnFile mgr array itemSize) (inside : idx < array.size) {m fd : ℕ}
    (fetched : Returns (fun fuel => mgr.fetchPageSync fuel ⟨array.fdGbp, fileOffset itemSize idx / pageSize⟩) (m, mgr'))
    (frame : m < mgr'.poolSize) (bytes : ∀ i < pageSize,
      (⟨fd, fileOffset itemSize idx / pageSize⟩ : Page).position i < mgr.disk.getFileSizeFast array.fdGbp →
        mgr'.frame ⟨array.fdGbp, fileOffset itemSize idx / pageSize⟩ m i =
          content fd ((⟨fd, fileOffset itemSize idx / pageSize⟩ : Page).position i)) :
    MmapArray.Decodes mgr array idx (itemOf content fd itemSize idx) := by
  obtain ⟨range, fits⟩ := onFile.inRange inside
  refine (onFile.decodes_iff inside).mpr ⟨m, mgr', fetched, fun heap => ?_⟩
  rw [blockBytes_onePage fits frame, itemOf]
  refine List.map_congr_left fun i member => ?_
  have small : i < itemSize := List.mem_range.mp member
  have within := range.inside
  have position := position_piece fd (fileOffset itemSize idx) i
  rw [bytes _ (by omega) (by omega), position]

/-- An item that can be read is that of the file. -/
theorem BufferPoolManager.Caches.decodes (caches : Caches K F content mgr place pins)
    (onFile : OnFile mgr array itemSize)
    (inside : idx < array.size) {m : ℕ}
    (room : ∀ m, Room (pins (mgr.poolOf ⟨array.fdGbp, fileOffset itemSize idx / pageSize⟩)) m)
    (ran : Returns (fun fuel => mgr.fetchPageSync fuel ⟨array.fdGbp, fileOffset itemSize idx / pageSize⟩) (m, mgr')) :
    MmapArray.Decodes mgr array idx (itemOf content array.fdGbp itemSize idx) := by
  have inFile := (onFile.inRange inside).1.firstPage onFile.positive
  obtain ⟨pool', place', _, shape, _, fetched, caches'⟩ := caches.fetch inFile room ran
  have here : update place (mgr.poolOf ⟨array.fdGbp, fileOffset itemSize idx / pageSize⟩) place'
      (mgr'.poolOf ⟨array.fdGbp, fileOffset itemSize idx / pageSize⟩) m =
        .resident ⟨array.fdGbp, fileOffset itemSize idx / pageSize⟩ := by
    rw [shape.poolOf, update_self]
    exact fetched.resident
  have valid := (shape.handles.valid _).trans onFile.range.valid
  exact onFile.decodes inside ran (caches'.sound.frame_lt here) fun i small _ =>
    caches'.sound.frame_byte here small (caches'.known _ (Or.inr valid) _)

/-- `touch` returns an array of bytes on the copy. -/
theorem BufferPoolManager.Caches.touch (caches : Caches K (· = array.fdGbp) content mgr place pins)
    (range : InRange mgr array.fdGbp 0 0) (unheld : Unheld pins array.fdGbp) (few : mgr.disk.files.length < 2 ^ 13)
    (filename : String) : ∃ copy mgr',
      array.touch filename mgr = .ok (arrayOn mgr.disk.files.length filename false
        (mgr'.disk.getFileSizeFast mgr.disk.files.length) 1 4096, mgr') ∧
      Reopens K content mgr place pins array.fdGbp copy mgr' := by
  obtain ⟨mid, closed, files, length, reopen⟩ := caches.reopen rfl range unheld
  have bound : (mid.disk.file array.fdGbp).length < 2 ^ 64 := length ▸ mgr.disk.getFileSizeFast_lt _
  obtain ⟨mgr', returned, reopens⟩ := reopen ⟨mid.disk.file array.fdGbp, bound⟩ rfl
  refine ⟨_, mgr', ?_, reopens⟩
  have handle : array.fdGbp ≠ invalidFileHandle := (range.handle.trans (by decide)).ne
  have close : array.closeIn mgr = .ok ({ array with fdGbp := invalidFileHandle }, mid) := by
    rw [MmapArray.closeIn, if_pos handle, closed]
    rfl
  have copy : mid.disk.copyFile array.fdGbp = .ok ⟨mid.disk.file array.fdGbp, bound⟩ := dif_pos bound
  rw [← files] at returned
  have opened := @openIn_closed R mid mgr' { array with fdGbp := invalidFileHandle } 1 filename false _ 4096 rfl
    (by omega) returned
  simp only [MmapArray.touch, close, ok_bind, copy, opened]
  rw [files, reopens.size, length]

/-- The array on the copy. -/
theorem BufferPoolManager.Reopens.onFile {copy : OsFile} {fd : ℕ}
    (reopens : Reopens K content mgr place pins fd copy mgr')
    (range : InRange mgr fd 0 0) (few : mgr.disk.files.length < 2 ^ 13) (filename : String) :
    OnFile mgr' (arrayOn mgr.disk.files.length filename false
      (mgr'.disk.getFileSizeFast mgr.disk.files.length) 1 4096) 1 :=
  onFile_arrayOn ⟨few, reopens.valid, reopens.size.trans_le range.small, Nat.zero_le _⟩ Nat.one_pos (by decide)
    filename false 4096

/-- The page of a byte. -/
theorem fileOffset_one_div (idx : ℕ) : fileOffset 1 idx / pageSize = idx / pageSize := by
  rw [fileOffset_div Nat.one_pos (by decide), objNumPerPage_eq, Nat.div_one]

/-- The bytes of the copy are those of the file. -/
theorem BufferPoolManager.Reopens.itemOf_eq {copy : OsFile} {fd : ℕ}
    (reopens : Reopens K content mgr place pins fd copy mgr')
    (inside : idx < mgr.disk.getFileSizeFast fd) :
    itemOf (opened content mgr.disk.files.length copy.1) mgr.disk.files.length 1 idx = itemOf content fd 1 idx := by
  have offset : fileOffset 1 idx = idx := by
    have split := Nat.div_add_mod' idx pageSize
    rw [fileOffset, objNumPerPage_eq, Nat.div_one]
    omega
  simp only [itemOf, List.range_one, List.map_cons, List.map_nil, offset, Nat.add_zero]
  rw [opened, if_pos rfl, reopens.byte idx inside]

omit [LawfulReplacer R] in
/-- Reading a byte of an array of bytes and freeing it is a read of its page. -/
theorem OnFile.readStep_iff (onFile : OnFile mgr array 1) : MmapArray.ReadStep array mgr mgr' ↔
    AnyRead (Finset.range (mgr.fpageNum array.fdGbp)) (FileRead array.fdGbp) mgr mgr' := by
  constructor
  · rintro ⟨inside, asked, ran, free⟩
    cases (onFile.get inside).symm.trans asked
    obtain ⟨range, fits⟩ := onFile.inRange inside
    have inFile := range.firstPage Nat.one_pos
    have bound := (Nat.lt_add_of_pos_right Nat.one_pos).trans_le range.bound
    obtain ⟨m, fetched, rfl⟩ := (getBlockSync_returns Nat.one_pos fits bound).mp ran
    rw [onePage_free Nat.one_pos] at free
    cases free
    exact ⟨_, Finset.mem_range.mpr ((lt_ceil_iff (by decide)).mpr inFile.inside), m, _, fetched, rfl⟩
  · rintro ⟨k, member, m, mid, fetched, rfl⟩
    have below := (lt_ceil_iff (by decide)).mp (Finset.mem_range.mp member)
    have inside : k * pageSize < array.size := by rwa [onFile.size, sizeOf_one]
    obtain ⟨range, fits⟩ := onFile.inRange inside
    have bound := (Nat.lt_add_of_pos_right Nat.one_pos).trans_le range.bound
    have page : fileOffset 1 (k * pageSize) / pageSize = k := by
      rw [fileOffset_one_div, Nat.mul_div_cancel _ (by decide)]
    rw [← page] at fetched
    have returned := (getBlockSync_returns Nat.one_pos fits bound).mpr ⟨m, fetched, rfl⟩
    have step := MmapArray.ReadStep.get inside (onFile.get inside) returned (onePage_free Nat.one_pos ..)
    rwa [page] at step

section pool

variable {mgr first : BufferPoolManager SieveReplacer_v3} {s : Session SieveReplacer_v3}

/-- The items of an array of bytes are read as the pages of its file. -/
theorem reads_iff (caches : Caches K F content first place pins) (onFile : OnFile first array 1)
    (room : ∀ i < first.partitioner.numPartitions, ∀ m, Room (pins i) m)
    (unheld : ∀ i < first.partitioner.numPartitions, ∀ pin ∈ pins i, pin.1.fd ≠ array.fdGbp) :
    ReflTransGen (MmapArray.ReadStep array) first mgr ↔
      ReflTransGen (AnyRead (Finset.range (first.fpageNum array.fdGbp)) (FileRead array.fdGbp)) first mgr := by
  have pages {mgr : BufferPoolManager SieveReplacer_v3} (shape : SameShape first mgr) :
      first.fpageNum array.fdGbp = mgr.fpageNum array.fdGbp := by
    rw [fpageNum, fpageNum, shape.handles.size]
  constructor
  · intro steps
    induction steps with
    | refl => exact .refl
    | tail _ step reads =>
      obtain ⟨shape, _⟩ := caches.rereads onFile.range room unheld reads
      refine reads.tail ?_
      rw [pages shape]
      exact (onFile.shape shape).readStep_iff.mp step
  · intro reads
    induction reads with
    | refl => exact .refl
    | tail before read steps =>
      obtain ⟨shape, _⟩ := caches.rereads onFile.range room unheld before
      rw [pages shape] at read
      exact steps.tail ((onFile.shape shape).readStep_iff.mpr read)

/-- The array after `touch` has as many items as the file has bytes. -/
theorem MmapArray.TouchKeeps.size_eq {array : MmapArray} (keeps : MmapArray.TouchKeeps mgr array)
    (caches : Caches K (· = array.fdGbp) content mgr place pins) (range : InRange mgr array.fdGbp 0 0)
    (unheld : Unheld pins array.fdGbp) (few : mgr.disk.files.length < 2 ^ 13) :
    array.size = mgr.disk.getFileSizeFast array.fdGbp := by
  obtain ⟨array', mgr', _, ran, size, _⟩ := keeps ""
  obtain ⟨copy, mgr'', touched, reopens⟩ := caches.touch range unheld few ""
  cases touched.symm.trans ran
  rw [← size, ← reopens.size]
  exact sizeOf_one _

/-- Two frames and a file of one page. -/
def twoFrames : Session SieveReplacer_v3 :=
  ⟨.init ⟨0⟩ 2 (fun _ _ _ => 0) (zeroFile pageSize (by decide)),
    opened (fun _ _ => 0) 0 (zeroFile pageSize (by decide)).1, fun _ => []⟩

/-- A page of that file is read, then an array of bytes is opened on another file of one page, and its first byte is
set. Both frames are in use then, and `Victim` would take the frame of the first file first. -/
theorem exists_secondFrame : ∃ (s : Session SieveReplacer_v3) (array : MmapArray), ArrayRun s array ∧
    s.pins = (fun _ => []) ∧ s.mgr.disk.files.length = 2 ∧ s.mgr.partitioner = ⟨0⟩ ∧ array.itemSize = some 1 ∧
      array.fdGbp = 1 ∧ s.mgr.fpageNum 1 = 1 ∧ (s.mgr.pool 0).pageTable.word? ⟨1, 0⟩ = some (.frame 1) ∧
        (s.mgr.pool 0).freeList = [] ∧ (s.mgr.pool 0).RoomFor 1 1 := by
  have values : (do
      let (m, mgr) ← twoFrames.mgr.fetchPageSync 8 ⟨0, 0⟩
      let (_, mgr) ← (mgr.decRefCount ⟨0, 0⟩ m false).openFile (zeroFile pageSize (by decide))
      let mgr ← mgr.setBlock 8 (List.getD [7] · 0) 0 1 1 false
      return ([mgr.partitioner.log2NumPartitions, mgr.disk.files.length, mgr.fpageNum 1],
        (mgr.pool 0).pageTable.word? ⟨1, 0⟩, (mgr.pool 0).freeList, decide ((mgr.pool 0).RoomFor 1 1))) =
          Except.ok ([0, 2, 1], some (MapWord.frame 1), [], true) := by
    decide +kernel
  obtain ⟨⟨m, mgr₁⟩, fetch, values⟩ := bind_eq_ok.mp values
  obtain ⟨⟨fd, mgr₂⟩, returned, values⟩ := bind_eq_ok.mp values
  obtain ⟨mgr₃, stored, values⟩ := bind_eq_ok.mp values
  simp only [pure, Except.pure, Except.ok.injEq, Prod.mk.injEq, List.cons.injEq, decide_eq_true_eq] at values
  obtain ⟨⟨partition, length, count, _⟩, mapped, full, frames⟩ := values
  -- the page of the first file is read
  have start : ProgramRun twoFrames := .init (.init _ _ _ _)
  have inFile : InFile twoFrames.mgr ⟨0, 0⟩ := ⟨by decide, rfl, by decide, by decide⟩
  have room (i m : ℕ) : Room (twoFrames.pins i) m := by simp [Room, twoFrames]
  have fetched := (fetchPageSync_stable ⟨0, 0⟩ twoFrames.mgr).returns fetch
  obtain ⟨_, _, caches⟩ := start.caches
  obtain ⟨_, _, _, shape, _⟩ := caches.fetch inFile (room _) fetched
  have held := start.step (.session (.fetch inFile (room _) fetched))
  have pin : ((⟨0, 0⟩, m) : Page × ℕ) ∈ update twoFrames.pins (twoFrames.mgr.poolOf ⟨0, 0⟩)
      ((⟨0, 0⟩, m) :: twoFrames.pins (twoFrames.mgr.poolOf ⟨0, 0⟩)) (mgr₁.poolOf ⟨0, 0⟩) := by
    rw [shape.poolOf, update_self]
    exact List.mem_cons_self
  have released := held.step (.session (.release pin false))
  dsimp only at released
  rw [shape.poolOf, update_self, update_idem, List.erase_cons_head, update_eq_self] at released
  -- the array is opened
  have files : (mgr₁.decRefCount ⟨0, 0⟩ m false).disk.files.length = 1 := shape.handles.length
  obtain ⟨_, opened, opens⟩ := exists_openFile (mgr₁.decRefCount ⟨0, 0⟩ m false) (zeroFile pageSize (by decide))
  cases opened.symm.trans returned
  have set := @openIn_closed _ _ mgr₂ .new 1 "a" false _ 4096 rfl (by rw [files]; decide) opened
  have run := ArrayRun.opened released (by rw [files]; decide) "a" false _ (by decide) (by decide) (by decide) set
  rw [files] at run
  -- and its first byte is set
  have returned := (setBlock_stable (List.getD [7] · 0) 0 1 1 false mgr₂).returns stored
  obtain ⟨content, run'⟩ := @ArrayRun.setPartial _ _ _ mgr₃ _ _ 0 0 0 1 [7] run (fun i _ => room i) (by decide)
    (fun _ same => by cases same; decide) rfl returned
  exact ⟨_, _, run', rfl, length, congrArg Partitioner.mk partition, rfl, rfl, count, mapped, full, frames⟩

/-- A program that has opened an array of one item of eight bytes. -/
theorem exists_oneItem : ∃ (s : Session SieveReplacer_v3) (array : MmapArray), ArrayRun s array ∧
    s.pins = (fun _ => []) ∧ s.mgr.disk.files.length = 2 ∧ array.size = 1 ∧
      s.mgr.disk.getFileSizeFast array.fdGbp = 8 := by
  have start : ProgramRun twoFrames := .init (.init _ _ _ _)
  obtain ⟨mgr, returned, opens⟩ := exists_openFile twoFrames.mgr (zeroFile 8 (by decide))
  have set := @openIn_closed _ _ mgr .new 8 "a" false _ 4096 rfl (by decide) returned
  refine ⟨_, _, .opened start (by decide) "a" false _ (by decide) (by decide) (by decide) set, rfl, ?_, by decide, ?_⟩
  · rw [opens.disk, openFile_length]
    rfl
  · rw [opens.disk, openFile_size]
    exact if_pos rfl

end pool

end Gbp
