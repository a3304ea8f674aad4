import GraphBufferPool.Pool.DiskManager
import GraphBufferPool.Replacer.Replacer

/-! # A buffer pool, run by one thread

`BufferPool` with its three page-fetch state machines. The loops of `FetchPageSync`,
`FetchPageSync1` and `FetchPageSync2` take a fuel, the number of rounds of `while (true)`; the
states they share are one function each. A request is its phase, which carries the frame of
`response` from the state that chose it on.
-/

namespace Gbp

/-- `BufferPool`, with the `DiskManager` behind its pointer. -/
structure BufferPool (R : Type) where
  poolId : ℕ
  poolSize : ℕ
  pageTable : PageTable
  freeList : List ℕ
  replacer : R
  memory : ℕ → Bytes
  disk : DiskManager

/-- `BP_sync_request_type::Phase`. -/
inductive Phase
  | begin
  | reBegin
  | initing
  | evicting (m : ℕ)
  | loading (m : ℕ)
  | loadingFinish (m : ℕ)
  | finish (m : ℕ)
deriving DecidableEq, Repr

/-- The phase after an attempt to pin: `End` with the frame, or `Begin` again. -/
def Phase.ofPin : Option ℕ → Phase
  | some m => .finish m
  | none => .begin

namespace BufferPool

variable {R : Type} [Replacer R]

/-- `RegisterFile`. -/
def registerFile (pool : BufferPool R) (fd : ℕ) : BufferPool R :=
  { pool with
    pageTable := pool.pageTable.registerFile (ceil (pool.disk.getFileSizeFast fd) pageSize) }

/-- `init`, before any file is opened. -/
def init (poolId poolSize : ℕ) (partitioner : Partitioner) (memory : ℕ → Bytes) : BufferPool R where
  poolId := poolId
  poolSize := poolSize
  pageTable := ⟨partitioner, [], fun _ => .empty⟩
  freeList := List.range poolSize
  replacer := Replacer.new poolSize
  memory := memory
  disk := ⟨[]⟩

/-- `CloseFile`. -/
def closeFile (pool : BufferPool R) (fd : ℕ) : BufferPool R :=
  { pool with pageTable := pool.pageTable.deregisterFile fd }

/-- `Resize`. -/
def resize (pool : BufferPool R) (fd newSize : ℕ) : Except Stop (BufferPool R) := do
  return { pool with pageTable := ← pool.pageTable.resizeFile fd (ceil newSize pageSize) }

/-- `Pin`: the frame where it succeeds. -/
def pin (pool : BufferPool R) (page : Page) : Except Stop (Option ℕ × BufferPool R) := do
  match ← pool.pageTable.load page with
  | .frame m =>
    let (hasInc, pageTable) := pool.pageTable.incRefCount1 m page
    let pool := { pool with pageTable := pageTable }
    if hasInc then
      let (promoted, replacer) ← Replacer.promote pool.replacer m
      check promoted
      return (some m, { pool with replacer := replacer })
    else return (none, pool)
  | _ => return (none, pool)

/-- `DecRefCount` by the holder of frame `m`. -/
def decRefCount (pool : BufferPool R) (m : ℕ) (isWrite : Bool) : BufferPool R :=
  { pool with pageTable := pool.pageTable.decRefCount m isWrite }

/-- State `Begin`: whether the mapping was locked, and the next phase. -/
def beginPhase (pool : BufferPool R) (page : Page) : Except Stop (Bool × Phase × BufferPool R) := do
  let (locked, pageTable) ← pool.pageTable.lockMapping page
  let pool := { pool with pageTable := pageTable }
  match locked with
  | some .empty => return (true, .initing, pool)
  | some value =>
    let (unlocked, pageTable) ← pool.pageTable.unLockMapping page value
    check unlocked
    let (pinned, pool) ← { pool with pageTable := pageTable }.pin page
    return (true, .ofPin pinned, pool)
  | none =>
    let (pinned, pool) ← pool.pin page
    return (false, .ofPin pinned, pool)

/-- State `Initing`: `Loading` with a polled frame, or `Evicting` with a victim. -/
def initingPhase (pool : BufferPool R) : Except Stop (Phase × BufferPool R) := do
  match pool.freeList with
  | m :: rest => return (.loading m, { pool with freeList := rest })
  | [] =>
    let (victim, replacer, pageTable) ← Replacer.victim pool.replacer pool.pageTable
    match victim with
    | some m => return (.evicting m, { pool with replacer := replacer, pageTable := pageTable })
    | none => throw .assertion

/-- State `Evicting`: write the page back if it is dirty and delete its mapping. -/
def evictingPhase (pool : BufferPool R) (m : ℕ) : Except Stop (BufferPool R) := do
  let old := (pool.pageTable.ptes m).page
  let disk ←
    if (pool.pageTable.ptes m).dirty then
      pool.disk.write old.fd (old.fpageId * pageSize) (pool.memory m)
    else pure pool.disk
  let (deleted, pageTable) ← pool.pageTable.deleteMapping old
  check deleted
  return { pool with pageTable := pageTable, disk := disk }

/-- The read of state `Loading`. -/
def readPage (pool : BufferPool R) (page : Page) (m : ℕ) : Except Stop (BufferPool R) := do
  let data ← pool.disk.read page.fd (page.fpageId * pageSize) (pool.memory m)
  return { pool with memory := Function.update pool.memory m data }

/-- The end of states `Loading` and `LoadingFinish`: the entry, the replacer and the mapping. -/
def publish (pool : BufferPool R) (page : Page) (m : ℕ) : Except Stop (BufferPool R) := do
  let pageTable := pool.pageTable.setPte m (.loaded page)
  let (inserted, replacer) ← Replacer.insert pool.replacer m
  check inserted
  let (created, pageTable) ← pageTable.createMapping page (.frame m)
  check created
  return { pool with pageTable := pageTable, replacer := replacer }

/-- The rounds of `FetchPageSync`. -/
def fetchLoop (page : Page) : ℕ → Phase → BufferPool R → Except Stop (ℕ × BufferPool R)
  | 0, _, _ => .error .outOfFuel
  | fuel + 1, .begin, pool => do
    let (_, phase, pool) ← pool.beginPhase page
    fetchLoop page fuel phase pool
  | fuel + 1, .initing, pool => do
    let (phase, pool) ← pool.initingPhase
    fetchLoop page fuel phase pool
  | fuel + 1, .evicting m, pool => do fetchLoop page fuel (.loading m) (← pool.evictingPhase m)
  | _ + 1, .loading m, pool => do return (m, ← (← pool.readPage page m).publish page m)
  | _ + 1, .finish m, pool => return (m, pool)
  | fuel + 1, phase, pool => fetchLoop page fuel phase pool

/-- `FetchPageSync`. -/
def fetchPageSync (fuel : ℕ) (page : Page) (pool : BufferPool R) : Except Stop (ℕ × BufferPool R) := do
  let (pinned, pool) ← pool.pin page
  match pinned with
  | some m => return (m, pool)
  | none => fetchLoop page fuel .begin pool

/-- `FetchPageSync1`: whether the request has ended, and its phase. -/
def fetchPageSync1 (page : Page) :
    ℕ → Phase → BufferPool R → Except Stop (Bool × Phase × BufferPool R)
  | 0, _, _ => .error .outOfFuel
  | fuel + 1, .begin, pool => do
    let (_, phase, pool) ← pool.beginPhase page
    fetchPageSync1 page fuel phase pool
  | fuel + 1, .reBegin, pool => do
    let (pinned, pool) ← pool.pin page
    match pinned with
    | some m => fetchPageSync1 page fuel (.finish m) pool
    | none => return (false, .reBegin, pool)
  | fuel + 1, .initing, pool => do
    let (phase, pool) ← pool.initingPhase
    match phase with
    | .loading m => return (false, .loading m, pool)
    | phase => fetchPageSync1 page fuel phase pool
  | _ + 1, .evicting m, pool => do return (false, .loading m, ← pool.evictingPhase m)
  | _ + 1, .loading m, pool => do return (true, .finish m, ← (← pool.readPage page m).publish page m)
  | _ + 1, .finish m, pool => return (true, .finish m, pool)
  | fuel + 1, phase, pool => fetchPageSync1 page fuel phase pool

/-- What an asynchronous read leaves in a frame when its request has completed, given the file, the
offset and the frame before. -/
abbrev AsyncRead := DiskFile → ℕ → Bytes → Bytes

/-- The read of state `Loading` of `FetchPageSync2`, as `Wait` finds it completed. -/
def awaitRead (io : AsyncRead) (pool : BufferPool R) (page : Page) (m : ℕ) :
    Except Stop (BufferPool R) :=
  match pool.disk.files[page.fd]? with
  | some entry =>
    if entry.valid then
      .ok { pool with
        memory := Function.update pool.memory m
          (io entry.file (page.fpageId * pageSize) (pool.memory m)) }
    else .error .badHandle
  | none => .error .badHandle

/-- `FetchPageSync2`: whether the request has ended, and its phase. -/
def fetchPageSync2 (io : AsyncRead) (page : Page) :
    ℕ → Phase → BufferPool R → Except Stop (Bool × Phase × BufferPool R)
  | 0, _, _ => .error .outOfFuel
  | fuel + 1, .begin, pool => do
    let (locked, phase, pool) ← pool.beginPhase page
    if locked then fetchPageSync2 io page fuel phase pool else return (false, phase, pool)
  | _ + 1, .reBegin, _ => throw .assertion
  | fuel + 1, .initing, pool => do
    let (phase, pool) ← pool.initingPhase
    match phase with
    | .loading m => return (false, .loading m, pool)
    | phase => fetchPageSync2 io page fuel phase pool
  | _ + 1, .evicting m, pool => do return (false, .loading m, ← pool.evictingPhase m)
  | _ + 1, .loading m, pool => return (false, .loadingFinish m, pool)
  | _ + 1, .loadingFinish m, pool => do
    return (true, .finish m, ← (← pool.awaitRead io page m).publish page m)
  | _ + 1, .finish m, pool => return (true, .finish m, pool)

/-- `FlushPage`. -/
def flushPage (pool : BufferPool R) (page : Page) (deleteFromMemory : Bool) :
    Except Stop (Bool × BufferPool R) := do
  let (locked, pageTable) ← pool.pageTable.lockMapping page
  let pool := { pool with pageTable := pageTable }
  match locked with
  | none => return (false, pool)
  | some (.frame m) =>
    let pte := pool.pageTable.ptes m
    let pool ←
      if pte.dirty then do
        let disk ← pool.disk.write pte.fdCur (page.fpageId * pageSize) (pool.memory m)
        pure { pool with disk := disk, pageTable := pool.pageTable.setPte m (pte.setDirty false) }
      else pure pool
    if deleteFromMemory then
      let (deleted, pageTable) ← pool.pageTable.deleteMapping page
      check deleted
      return (true, { pool with pageTable := pageTable, freeList := pool.freeList ++ [m] })
    else return (true, pool)
  | some value =>
    let (unlocked, pageTable) ← pool.pageTable.unLockMapping page value
    check unlocked
    return (true, { pool with pageTable := pageTable })

end BufferPool

end Gbp
