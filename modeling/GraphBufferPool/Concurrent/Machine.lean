import GraphBufferPool.Words
import GraphBufferPool.Partitioner
import GraphBufferPool.Disk
import GraphBufferPool.Replacer.ListArray
import GraphBufferPool.Lib.Reach
import GraphBufferPool.Lib.Counting

/-! # The interleaving model of one buffer pool

Any number of threads run `Pin`, `FetchPageSync`, the per-page body of `SetBlock`, `UpdateContent`
and `DecRefCount` on the pages of one pool. Each atomic load or read-modify-write of a mapping word
or a page-table entry is one step, and so is each byte a writer stores into a frame. A
compare-exchange loop is a load step followed by exchange steps; a failed exchange, spurious or
not, loads the word again. `Insert` and `Victim` of `SieveReplacer_v3` hold its latch.

A failed assertion or an exception ends the process: the machine has no step there.
-/

namespace Gbp

/-- A pool, its partition and the fixed sizes of the files. A handle that `OpenFile` never returned
has size zero. -/
structure PoolConfig where
  partitioner : Partitioner
  poolId : ℕ
  poolSize : ℕ
  fileSize : ℕ → ℕ
  fileSize_lt : ∀ fd, fileSize fd < 2 ^ 64

/-- The pages the manager hands to this pool: in the file, with a 32-bit page id, of the pool's
partition. -/
def PoolConfig.Valid (cfg : PoolConfig) (page : Page) : Prop :=
  page.fpageId * pageSize < cfg.fileSize page.fd ∧ page.fpageId < fpageIdRange ∧
    cfg.partitioner.getPartitionId page.fpageId = cfg.poolId

instance (cfg : PoolConfig) (page : Page) : Decidable (cfg.Valid page) :=
  inferInstanceAs (Decidable (_ ∧ _ ∧ _))

/-- Offset `i` of the page lies in the page and before the end of the file. -/
def PoolConfig.InFile (cfg : PoolConfig) (page : Page) (i : ℕ) : Prop :=
  i < pageSize ∧ page.fpageId * pageSize + i < cfg.fileSize page.fd

instance (cfg : PoolConfig) (page : Page) (i : ℕ) : Decidable (cfg.InFile page i) :=
  inferInstanceAs (Decidable (_ ∧ _))

namespace Concurrent

/-- The bytes a writer stores into a page, in its order. -/
abbrev Stores := List (ℕ × UInt8)

/-- What the caller does with the page: `BufferPool::Pin`, `FetchPageSync`, or the body of
`SetBlock`, which copies bytes and releases the page with `DecRefCount(true)`. -/
inductive Goal
  | pin
  | fetch
  | setBlock (stores : Stores)
deriving DecidableEq

structure Request where
  page : Page
  goal : Goal
deriving DecidableEq

/-- Who called `LockMapping`: state `Begin` of `FetchPageSync`, or `Victim` at the candidate
`toEvict` with `count` tries left. -/
inductive Caller
  | fetch (r : Request)
  | victim (r : Request) (toEvict count : ℕ)
deriving DecidableEq

/-- The calls that overwrite a BUSY mapping word: `CreateMapping` after a failed `Lock` inside
`LockMapping`, at the end of `UnLockMapping` and at the end of a load, and `DeleteMapping`. -/
inductive MapWrite
  | restore (caller : Caller) (page : Page) (m : ℕ)
  | unlocked (caller : Caller) (page : Page) (value : MapWord)
  | deleted (r : Request) (m : ℕ) (victim : Page)
  | created (r : Request) (m : ℕ)
deriving DecidableEq

/-- The program counter of a thread with its local variables. The argument `victim` of the eviction
states is the page `Victim` locked; the source reads it back from the entry. -/
inductive Pc
  | idle
  | findMapping (r : Request)
  | incRefCount (r : Request) (m : ℕ)
  | undoRefCount (r : Request) (m : ℕ)
  | promote (r : Request) (m : ℕ)
  | lockLoad (caller : Caller) (page : Page)
  | lockCas (caller : Caller) (page : Page) (old : MapWord)
  | pteLockLoad (caller : Caller) (page : Page) (m : ℕ)
  | pteLockCas (caller : Caller) (page : Page) (m : ℕ) (old : PTE)
  | unLockTest (caller : Caller) (page : Page) (value : MapWord)
  | pteUnLockLoad (caller : Caller) (page : Page) (m : ℕ)
  | pteUnLockCas (caller : Caller) (page : Page) (m : ℕ) (old : PTE)
  | writeLoad (write : MapWrite)
  | writeCas (write : MapWrite)
  | initing (r : Request)
  | victimBegin (r : Request)
  | sweep (r : Request) (toEvict count : ℕ)
  | sweepSub (r : Request) (toEvict count : ℕ)
  | victimRef (r : Request) (toEvict count : ℕ)
  | victimLoad (r : Request) (toEvict count : ℕ)
  | victimTest (r : Request) (toEvict count : ℕ) (victim : Page) (value : MapWord)
  | victimUnLock (r : Request) (toEvict count : ℕ) (victim : Page) (value : MapWord)
  | victimNext (r : Request) (toEvict count : ℕ)
  | evictDirty (r : Request) (m : ℕ) (victim : Page)
  | evictWrite (r : Request) (m : ℕ) (victim : Page)
  | evictDelete (r : Request) (m : ℕ) (victim : Page)
  | loadRead (r : Request) (m : ℕ)
  | loadStore (r : Request) (m : ℕ)
  | insert (r : Request) (m : ℕ)
  | setObject (page : Page) (m : ℕ) (stores : Stores) (wrote : Bool)
  | decDirty (page : Page) (m : ℕ) (wrote : Bool)
  | decRefCount (page : Page) (m : ℕ)
  | update (page : Page) (m : ℕ) (stores : Stores) (wrote : Bool)
  | updateDirty (page : Page) (m : ℕ) (wrote : Bool)
deriving DecidableEq

/-- The shared memory, the program counters, the pins callers hold, and the history variable
`content`: the bytes each page has after the stores made so far. -/
structure State (T : Type) where
  ptes : ℕ → PTE
  mappings : ℕ → ℕ → MapWord
  freeList : List ℕ
  list : ListArray
  pointer : ListIndex
  latch : Option T
  memory : ℕ → Bytes
  disk : ℕ → DiskFile
  pc : T → Pc
  pins : List (Page × ℕ)
  content : Page → Bytes

/-- The calls a thread may make. `decRefCount` and `update` use a pin returned before. -/
inductive Op
  | pin (page : Page)
  | fetchPageSync (page : Page)
  | setBlock (page : Page) (stores : Stores)
  | decRefCount (page : Page) (m : ℕ)
  | updateContent (page : Page) (m : ℕ) (stores : Stores)
deriving DecidableEq

/-- A call, the next step of the call, or a spurious failure of its compare-exchange. -/
inductive Action
  | call (op : Op)
  | next
  | spurious
deriving DecidableEq

variable {T : Type} [DecidableEq T] (cfg : PoolConfig)

namespace State

def mapping (s : State T) (page : Page) : MapWord :=
  s.mappings page.fd (cfg.partitioner.getFPageIdInPartition page.fpageId)

def setMapping (s : State T) (page : Page) (word : MapWord) : State T :=
  { s with
    mappings := Function.update s.mappings page.fd (Function.update (s.mappings page.fd)
      (cfg.partitioner.getFPageIdInPartition page.fpageId) word) }

def setPte (s : State T) (m : ℕ) (pte : PTE) : State T :=
  { s with ptes := Function.update s.ptes m pte }

def goto (s : State T) (t : T) (pc : Pc) : State T := { s with pc := Function.update s.pc t pc }

/-- One byte of a writer, into the frame and into the history of the page. -/
def store (s : State T) (page : Page) (m i : ℕ) (byte : UInt8) : State T :=
  { s with
    memory := Function.update s.memory m (Function.update (s.memory m) i byte)
    content := Function.update s.content page (Function.update (s.content page) i byte) }

/-- The write-back of `Evicting`: the page and the handle are read from the entry. -/
def writeBack (s : State T) (m : ℕ) : State T :=
  let page := (s.ptes m).page
  { s with
    disk := Function.update s.disk page.fd
      (RWSysCall.write (cfg.fileSize page.fd) (s.disk page.fd) (page.fpageId * pageSize)
        (s.memory m) pageSize) }

/-- The read of `Loading`. -/
def readPage (s : State T) (page : Page) (m : ℕ) : State T :=
  { s with
    memory := Function.update s.memory m
      (RWSysCall.read (s.disk page.fd) (page.fpageId * pageSize) (s.memory m) pageSize) }

/-- Returning frame `m` to the caller. -/
def finish (s : State T) (t : T) (r : Request) (m : ℕ) : State T :=
  match r.goal with
  | .setBlock stores => s.goto t (.setObject r.page m stores false)
  | _ => { s.goto t .idle with pins := (r.page, m) :: s.pins }

end State

/-- `Pin` returned a null pointer: `FetchPageSync` goes on in `Begin`. -/
def pinFailed (r : Request) : Pc :=
  match r.goal with
  | .pin => .idle
  | _ => .lockLoad (.fetch r) r.page

/-- `LockMapping` returned false. Its frame number is 0 then, never `BUSY_VALUE`, so `Begin` tries
`Pin`. -/
def lockFailed : Caller → Pc
  | .fetch r => .findMapping r
  | .victim r toEvict count => .victimNext r toEvict count

/-- `LockMapping` returned true with `value`. -/
def lockDone (caller : Caller) (page : Page) (value : MapWord) : Pc :=
  match caller with
  | .fetch r => if value = .empty then .initing r else .unLockTest caller page value
  | .victim r toEvict count => .victimTest r toEvict count page value

/-- The loop of `LockMapping` after loading `word`. -/
def lockSeen (caller : Caller) (page : Page) (word : MapWord) : Pc :=
  if word = .busy then lockFailed caller else .lockCas caller page word

/-- The loop of `Lock` after loading `word`. On failure the mapping is given back. -/
def pteLockSeen (caller : Caller) (page : Page) (m : ℕ) (word : PTE) : Pc :=
  if word.lock?.isNone then .writeLoad (.restore caller page m) else .pteLockCas caller page m word

namespace MapWrite

/-- The page whose mapping is overwritten. -/
def page : MapWrite → Page
  | .restore _ page _ => page
  | .unlocked _ page _ => page
  | .deleted _ _ victim => victim
  | .created r _ => r.page

/-- The word written. -/
def value : MapWrite → MapWord
  | .restore _ _ m => .frame m
  | .unlocked _ _ value => value
  | .deleted .. => .empty
  | .created _ m => .frame m

end MapWrite

/-- The state after the exchange of a `MapWrite` succeeded. -/
def State.written (s : State T) (t : T) : MapWrite → State T
  | .restore caller .. => s.goto t (lockFailed caller)
  | .unlocked (.fetch r) .. => s.goto t (.findMapping r)
  | .unlocked (.victim r toEvict count) .. => s.goto t (.victimNext r toEvict count)
  | .deleted r m _ => s.goto t (.loadRead r m)
  | .created r m => s.finish t r m

/-- The sweep moves on; an unlinked candidate raises an exception in `getValue`. -/
def State.sweepTo (s : State T) (t : T) (r : Request) (toEvict count : ℕ) : Option (State T) :=
  match s.list.sweepFrom toEvict with
  | .node i => some (s.goto t (.sweep r i count))
  | _ => none

/-- The first candidate of `Victim`: the hand, or the tail when the hand is at the head. -/
def State.sweepStart (s : State T) : ListIndex :=
  if s.pointer = .head then s.list.getTail else s.pointer

/-- The next step of thread `t` at program counter `pc`. -/
def next (s : State T) (t : T) : Pc → Option (State T)
  | .idle => none
  | .findMapping r =>
    match s.mapping cfg r.page with
    | .frame m => some (s.goto t (.incRefCount r m))
    | _ => some (s.goto t (pinFailed r))
  | .incRefCount r m =>
    let old := s.ptes m
    some ((s.setPte m (old.fetchAdd 1)).goto t
      (if old.busy then pinFailed r
        else if old.describes r.page then .promote r m else .undoRefCount r m))
  | .undoRefCount r m => some ((s.setPte m ((s.ptes m).fetchSub 1)).goto t (pinFailed r))
  | .promote r m => some ({ s with list := s.list.setValue m 1 }.finish t r m)
  | .lockLoad caller page => some (s.goto t (lockSeen caller page (s.mapping cfg page)))
  | .lockCas caller page old =>
    if s.mapping cfg page = old then
      some ((s.setMapping cfg page .busy).goto t
        (match old with
          | .frame m => .pteLockLoad caller page m
          | _ => lockDone caller page .empty))
    else some (s.goto t (lockSeen caller page (s.mapping cfg page)))
  | .pteLockLoad caller page m => some (s.goto t (pteLockSeen caller page m (s.ptes m)))
  | .pteLockCas caller page m old =>
    if s.ptes m = old then
      old.lock?.map fun new => (s.setPte m new).goto t (lockDone caller page (.frame m))
    else some (s.goto t (pteLockSeen caller page m (s.ptes m)))
  | .unLockTest caller page value =>
    match value with
    | .frame m =>
      if (s.ptes m).fpageIdCur ≠ page.fpageId ∧ (s.ptes m).fdCur = page.fd then none
      else some (s.goto t (.pteUnLockLoad caller page m))
    | _ => some (s.goto t (.writeLoad (.unlocked caller page value)))
  | .pteUnLockLoad caller page m =>
    if (s.ptes m).busy then some (s.goto t (.pteUnLockCas caller page m (s.ptes m))) else none
  | .pteUnLockCas caller page m old =>
    if s.ptes m = old then
      old.unLock?.map fun new =>
        (s.setPte m new).goto t (.writeLoad (.unlocked caller page (.frame m)))
    else if (s.ptes m).busy then some (s.goto t (.pteUnLockCas caller page m (s.ptes m)))
    else none
  | .writeLoad write =>
    if s.mapping cfg write.page = .busy then some (s.goto t (.writeCas write)) else none
  | .writeCas write =>
    if s.mapping cfg write.page = .busy then
      some ((s.setMapping cfg write.page write.value).written t write)
    else none
  | .initing r =>
    match s.freeList with
    | m :: rest => some ({ s with freeList := rest }.goto t (.loadRead r m))
    | [] => some (s.goto t (.victimBegin r))
  | .victimBegin r =>
    if s.latch.isSome then none
    else
      match s.sweepStart with
      | .node i =>
        if s.list.capacity = 0 then none
        else some ({ s with latch := some t }.goto t (.sweep r i (s.list.capacity * 2)))
      | _ => none
  | .sweep r toEvict count =>
    if 0 < s.list.val toEvict then some (s.goto t (.sweepSub r toEvict count))
    else some (s.goto t (.victimRef r toEvict count))
  | .sweepSub r toEvict count =>
    { s with list := s.list.setValue toEvict (s.list.val toEvict - 1) }.sweepTo t r toEvict count
  | .victimRef r toEvict count =>
    if (s.ptes toEvict).refCount ≠ 0 then some (s.goto t (.victimNext r toEvict count))
    else some (s.goto t (.victimLoad r toEvict count))
  | .victimLoad r toEvict count =>
    some (s.goto t (.lockLoad (.victim r toEvict count) (s.ptes toEvict).page))
  | .victimTest r toEvict count victim value =>
    if (s.ptes toEvict).refCount = 0 ∧ value ≠ .empty then
      some ({ s with
        pointer := s.list.getPrevNodeIndex toEvict
        list := s.list.removeFromIndex toEvict
        latch := none }.goto t (.evictDirty r toEvict victim))
    else some (s.goto t (.victimUnLock r toEvict count victim value))
  | .victimUnLock r toEvict count _ value =>
    some (s.goto t (.unLockTest (.victim r toEvict count) (s.ptes toEvict).page value))
  | .victimNext r toEvict count =>
    if count - 1 = 0 then none else s.sweepTo t r toEvict (count - 1)
  | .evictDirty r m victim =>
    some (s.goto t (if (s.ptes m).dirty then .evictWrite r m victim else .evictDelete r m victim))
  | .evictWrite r m victim => some ((s.writeBack cfg m).goto t (.evictDelete r m victim))
  | .evictDelete r m _ => some (s.goto t (.writeLoad (.deleted r m (s.ptes m).page)))
  | .loadRead r m => some ((s.readPage r.page m).goto t (.loadStore r m))
  | .loadStore r m => some ((s.setPte m (PTE.loaded r.page)).goto t (.insert r m))
  | .insert r m =>
    if s.latch.isSome then none
    else
      match (s.list.setValue m 0).moveToFront m with
      | (true, list) => some ({ s with list := list }.goto t (.writeLoad (.created r m)))
      | (false, _) => none
  | .setObject page m stores wrote =>
    match stores with
    | (i, byte) :: rest => some ((s.store page m i byte).goto t (.setObject page m rest true))
    | [] => some (s.goto t (.decDirty page m wrote))
  | .decDirty page m _ =>
    some ((s.setPte m ((s.ptes m).setDirty true)).goto t (.decRefCount page m))
  | .decRefCount _ m => some ((s.setPte m ((s.ptes m).fetchSub 1)).goto t .idle)
  | .update page m stores wrote =>
    match stores with
    | (i, byte) :: rest => some ((s.store page m i byte).goto t (.update page m rest true))
    | [] => some (s.goto t (.updateDirty page m wrote))
  | .updateDirty page m _ =>
    some { (s.setPte m ((s.ptes m).setDirty true)).goto t .idle with pins := (page, m) :: s.pins }

/-- A compare-exchange may fail although the word is unchanged. -/
def spurious (s : State T) (t : T) : Pc → Option (State T)
  | .lockCas caller page _ => some (s.goto t (lockSeen caller page (s.mapping cfg page)))
  | .pteLockCas caller page m _ => some (s.goto t (pteLockSeen caller page m (s.ptes m)))
  | .pteUnLockCas caller page m _ =>
    if (s.ptes m).busy then some (s.goto t (.pteUnLockCas caller page m (s.ptes m))) else none
  | .writeCas write => if s.mapping cfg write.page = .busy then some s else none
  | _ => none

/-- A thread outside any call starts one. -/
def call (s : State T) (t : T) : Op → Option (State T)
  | .pin page => if cfg.Valid page then some (s.goto t (.findMapping ⟨page, .pin⟩)) else none
  | .fetchPageSync page =>
    if cfg.Valid page then some (s.goto t (.findMapping ⟨page, .fetch⟩)) else none
  | .setBlock page stores =>
    if cfg.Valid page ∧ ∀ store ∈ stores, store.1 < pageSize then
      some (s.goto t (.findMapping ⟨page, .setBlock stores⟩))
    else none
  | .decRefCount page m =>
    if (page, m) ∈ s.pins then
      some ({ s with pins := s.pins.erase (page, m) }.goto t (.decRefCount page m))
    else none
  | .updateContent page m stores =>
    if (page, m) ∈ s.pins ∧ ∀ store ∈ stores, store.1 < pageSize then
      some ({ s with pins := s.pins.erase (page, m) }.goto t (.update page m stores false))
    else none

/-- The step of thread `t` chosen by `action`. -/
def step (s : State T) (t : T) : Action → Option (State T)
  | .call op => if s.pc t = .idle then call cfg s t op else none
  | .next => next cfg s t (s.pc t)
  | .spurious => spurious cfg s t (s.pc t)

/-- A pool after `init` and `OpenFile`: all frames free, all mappings empty, no call in progress. -/
structure Initial (s : State T) : Prop where
  ptes : ∀ m, s.ptes m = .empty
  mappings : ∀ page, s.mapping cfg page = .empty
  freeList : s.freeList = List.range cfg.poolSize
  list : s.list.capacity = cfg.poolSize ∧ s.list.nodes = []
  pointer : s.pointer = .head
  latch : s.latch = none
  pc : ∀ t, s.pc t = .idle
  pins : s.pins = []
  disk : ∀ fd, (s.disk fd).length = cfg.fileSize fd
  content : ∀ page i, s.content page i = (s.disk page.fd).byte (page.fpageId * pageSize + i)

/-- The pin a thread has from a call that is past its fetch and before its `fetch_sub`. -/
def Pc.pin? : Pc → Option (Page × ℕ)
  | .setObject page m .. => some (page, m)
  | .decDirty page m _ => some (page, m)
  | .decRefCount page m => some (page, m)
  | .update page m .. => some (page, m)
  | .updateDirty page m _ => some (page, m)
  | _ => none

/-- `page` was returned in frame `m` to a holder whose `DecRefCount` is still to come. -/
def State.Holds (s : State T) (page : Page) (m : ℕ) : Prop :=
  (page, m) ∈ s.pins ∨ ∃ t, (s.pc t).pin? = some (page, m)

variable [Fintype T]

/-- The outstanding pins on a frame. -/
def State.outstanding (s : State T) (m : ℕ) : ℕ :=
  s.pins.countP (fun pin => pin.2 = m) + Counting.count (fun pin => pin.map Prod.snd = some m)
    (fun t => (s.pc t).pin?)

/-- Outstanding pins plus threads fit the reference count. -/
def State.Bounded (s : State T) : Prop := ∀ m, s.outstanding m + Fintype.card T < 2 ^ 16

/-- One step of any thread. -/
def Step (s s' : State T) : Prop := ∃ t action, step cfg s t action = some s'

/-- The states of the runs in which the reference counts have room. -/
def Reachable : State T → Prop :=
  Machine.Reach (Initial cfg) fun s s' => s.Bounded ∧ Step cfg s s'

end Concurrent

end Gbp
