import GraphBufferPool.Pool.BufferPool

/-! # The buffer pool manager, run by one thread

`BufferPoolManager` over its pools, which share one `DiskManager`. `GetBlock` and both overloads of
`SetBlock` are one loop over the pages of a range; `blockLoop` is that loop, and each of them is
`blockLoop` applied to what it does with one pinned page. Its fuel also bounds the fetches.
-/

namespace Gbp

/-- The length of the piece of a page that `SetObject` and `GetObject` copy. -/
def objectSize (pageOffset size : ℕ) : ℕ :=
  if size + pageOffset > pageSize then pageSize - pageOffset else size

/-- The loop `while (block_size > 0)` over consecutive pages. `body` gets the page id, the offset in
the page, the bytes left and the bytes done, and returns the length of its piece. -/
def blockLoop {σ : Type} (body : ℕ → ℕ → ℕ → ℕ → ℕ → σ → Except Stop (ℕ × σ)) :
    ℕ → ℕ → ℕ → ℕ → ℕ → σ → Except Stop σ
  | 0, _, _, _, _, _ => .error .outOfFuel
  | fuel + 1, fpageId, fpageOffset, blockSize, done, s =>
    if blockSize = 0 then .ok s
    else do
      let (n, s) ← body fuel fpageId fpageOffset blockSize done s
      blockLoop body fuel ((fpageId + 1) % fpageIdRange) 0 (blockSize - n) (done + n) s

/-- The page id of a file offset, as `fpage_id_type` holds it. -/
def fpageIdOf (fileOffset : ℕ) : ℕ := fileOffset / pageSize % fpageIdRange

/-- `BufferPoolManager`: its pools by id, and the `DiskManager` they share. -/
structure BufferPoolManager (R : Type) where
  partitioner : Partitioner
  poolSize : ℕ
  pools : ℕ → BufferPool R
  disk : DiskManager

namespace BufferPoolManager

variable {R : Type}

/-- `pools_[i]`, with the shared disk behind its pointer. -/
def pool (mgr : BufferPoolManager R) (i : ℕ) : BufferPool R := { mgr.pools i with disk := mgr.disk }

/-- The manager after an operation of pool `i`. -/
def setPool (mgr : BufferPoolManager R) (i : ℕ) (pool : BufferPool R) : BufferPoolManager R :=
  { mgr with pools := Function.update mgr.pools i pool, disk := pool.disk }

/-- `pools_[partitioner_->GetPartitionId(fpage_id)]`. -/
def poolOf (mgr : BufferPoolManager R) (page : Page) : ℕ := mgr.partitioner.getPartitionId page.fpageId

/-- `for (auto pool : pools_)`. -/
def eachPool (mgr : BufferPoolManager R) (f : BufferPool R → Except Stop (BufferPool R)) :
    Except Stop (BufferPoolManager R) :=
  (List.range mgr.partitioner.numPartitions).foldlM
    (fun mgr i => do return mgr.setPool i (← f (mgr.pool i))) mgr

/-- `OpenFile` with `RegisterFile`: the handle. -/
def openFile (mgr : BufferPoolManager R) (file : OsFile) : Except Stop (ℕ × BufferPoolManager R) := do
  let (fd, disk) := mgr.disk.openFile file
  let mgr ← { mgr with disk := disk }.eachPool fun pool => .ok (pool.registerFile fd)
  return (fd, mgr)

/-- `Resize`. -/
def resize (mgr : BufferPoolManager R) (fd newSizeInByte : ℕ) (bound : newSizeInByte < 2 ^ 64) :
    Except Stop (BufferPoolManager R) := do
  let disk ← mgr.disk.resize fd newSizeInByte bound
  { mgr with disk := disk }.eachPool fun pool =>
    pool.resize fd (ceil newSizeInByte mgr.partitioner.numPartitions)

/-- `DecRefCount` on the entry that frame `m` of the pool of `page` holds it with. -/
def decRefCount (mgr : BufferPoolManager R) (page : Page) (m : ℕ) (isWrite : Bool) :
    BufferPoolManager R :=
  mgr.setPool (mgr.poolOf page) ((mgr.pool (mgr.poolOf page)).decRefCount m isWrite)

/-- The bytes of frame `m` of the pool of `page`. -/
def frame (mgr : BufferPoolManager R) (page : Page) (m : ℕ) : Bytes := (mgr.pools (mgr.poolOf page)).memory m

/-- A store to frame `m` of the pool of `page`. -/
def setFrame (mgr : BufferPoolManager R) (page : Page) (m : ℕ) (bytes : Bytes) : BufferPoolManager R :=
  let pool := mgr.pool (mgr.poolOf page)
  mgr.setPool (mgr.poolOf page) { pool with memory := Function.update pool.memory m bytes }

variable [Replacer R]

/-- `init`, with the file the constructor of `DiskManager` opens. -/
def init (partitioner : Partitioner) (poolSize : ℕ) (memory : ℕ → ℕ → Bytes) (file : OsFile) :
    BufferPoolManager R :=
  let (fd, disk) := DiskManager.openFile ⟨[]⟩ file
  { partitioner := partitioner
    poolSize := poolSize
    pools := fun i => { BufferPool.init i poolSize partitioner (memory i) with disk := disk }.registerFile fd
    disk := disk }

/-- `pools_[...]->FetchPageSync`. -/
def fetchPageSync (fuel : ℕ) (page : Page) (mgr : BufferPoolManager R) :
    Except Stop (ℕ × BufferPoolManager R) := do
  let (m, pool) ← BufferPool.fetchPageSync fuel page (mgr.pool (mgr.poolOf page))
  return (m, mgr.setPool (mgr.poolOf page) pool)

/-- `FlushPage`; `fpageId` is narrowed to `fpage_id_type` by the call. -/
def flushPage (mgr : BufferPoolManager R) (fpageId fd : ℕ) (deleteFromMemory : Bool) :
    Except Stop (Bool × BufferPoolManager R) := do
  let page : Page := ⟨fd, fpageId % fpageIdRange⟩
  let (flushed, pool) ← (mgr.pool (mgr.poolOf page)).flushPage page deleteFromMemory
  return (flushed, mgr.setPool (mgr.poolOf page) pool)

/-- What `GetBlock` does with one page: `GetObject` into the buffer, then `DecRefCount`. -/
def getBlockBody (fd fuel fpageId fpageOffset blockSize done : ℕ) :
    Bytes × BufferPoolManager R → Except Stop (ℕ × Bytes × BufferPoolManager R)
  | (buf, mgr) => do
    let (m, mgr) ← mgr.fetchPageSync fuel ⟨fd, fpageId⟩
    let n := objectSize fpageOffset blockSize
    let buf := memcpy buf done (mgr.frame ⟨fd, fpageId⟩ m) fpageOffset n
    return (n, buf, mgr.decRefCount ⟨fd, fpageId⟩ m false)

/-- `GetBlock`: the buffer after the call. -/
def getBlock (fuel : ℕ) (buf : Bytes) (fileOffset blockSize fd : ℕ) (mgr : BufferPoolManager R) :
    Except Stop (Bytes × BufferPoolManager R) :=
  blockLoop (getBlockBody fd) fuel (fpageIdOf fileOffset) (fileOffset % pageSize) blockSize 0 (buf, mgr)

/-- What `SetBlock(const char*, ...)` does with one page: `SetObject`, `DecRefCount(true)` and, if
asked, `FlushPage`. -/
def setBlockBody (buf : Bytes) (fd : ℕ) (flush : Bool)
    (fuel fpageId fpageOffset blockSize done : ℕ) (mgr : BufferPoolManager R) :
    Except Stop (ℕ × BufferPoolManager R) := do
  let (m, mgr) ← mgr.fetchPageSync fuel ⟨fd, fpageId⟩
  let n := objectSize fpageOffset blockSize
  let mgr := mgr.setFrame ⟨fd, fpageId⟩ m (memcpy (mgr.frame ⟨fd, fpageId⟩ m) fpageOffset buf done n)
  let mgr := mgr.decRefCount ⟨fd, fpageId⟩ m true
  if flush then
    let (flushed, mgr) ← mgr.flushPage fpageId fd false
    check flushed
    return (n, mgr)
  else return (n, mgr)

/-- `SetBlock(const char*, ...)`. -/
def setBlock (fuel : ℕ) (buf : Bytes) (fileOffset blockSize fd : ℕ) (flush : Bool)
    (mgr : BufferPoolManager R) : Except Stop (BufferPoolManager R) :=
  blockLoop (setBlockBody buf fd flush) fuel (fpageIdOf fileOffset) (fileOffset % pageSize) blockSize 0 mgr

/-- `LoadFile`. -/
def loadFile (fuel fd : ℕ) (mgr : BufferPoolManager R) : Except Stop (Bool × BufferPoolManager R) := do
  let mgr ← (List.range (ceil (mgr.disk.getFileSizeFast fd) pageSize)).foldlM
    (fun mgr fpageId => do
      let page : Page := ⟨fd, fpageId % fpageIdRange⟩
      let (m, mgr) ← mgr.fetchPageSync fuel page
      return mgr.decRefCount page m false) mgr
  return (true, mgr)

/-- `FlushFile`: the result of the flush of the last page. -/
def flushFile (mgr : BufferPoolManager R) (fd : ℕ) (deleteFromMemory : Bool) :
    Except Stop (Bool × BufferPoolManager R) :=
  if mgr.disk.validFD fd then
    (List.range (ceil (mgr.disk.getFileSizeFast fd) pageSize)).foldlM
      (fun state fpageId => state.2.flushPage fpageId fd deleteFromMemory) (true, mgr)
  else .ok (true, mgr)

/-- `Flush`, its threads run one after the other. -/
def flush (mgr : BufferPoolManager R) (deleteFromMemory : Bool) :
    Except Stop (Bool × BufferPoolManager R) := do
  let mgr ← (List.range mgr.disk.files.length).foldlM
    (fun mgr fd =>
      if mgr.disk.validFD fd then do
        let (flushed, mgr) ← mgr.flushFile fd deleteFromMemory
        check flushed
        return mgr
      else .ok mgr) mgr
  if deleteFromMemory then
    let mgr ← mgr.eachPool fun pool => .ok { pool with replacer := (Replacer.clean pool.replacer).2 }
    return (true, mgr)
  else return (true, mgr)

/-- `CloseFile`. -/
def closeFile (mgr : BufferPoolManager R) (fd : ℕ) : Except Stop (BufferPoolManager R) := do
  let (flushed, mgr) ← mgr.flushFile fd false
  check flushed
  { mgr with disk := mgr.disk.closeFile fd }.eachPool fun pool => .ok (pool.closeFile fd)

end BufferPoolManager

end Gbp
