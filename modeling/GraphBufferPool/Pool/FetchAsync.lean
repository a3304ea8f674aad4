import GraphBufferPool.Pool.BufferPool

/-! # The asynchronous fetch

`FetchPageAsyncInner` is called again and again by the thread of the pool. It hands the write-back of its victim and
the read of its page to `io_uring` and looks on later calls whether they have completed; what it finds is an input of
the call. The bytes are moved when a call finds them moved.
-/

namespace Gbp

/-- `IOServer::context_type::State`. -/
inductive ContextState
  | commit
  | poll
  | finish
deriving DecidableEq, Repr

/-- `IOServer::ProcessFunc`: whether the request has completed, where `TryWait` would return `ready`. Attempts to
submit it are repeated until one succeeds. -/
def ContextState.processFunc (ready : Bool) : ContextState → Bool × ContextState
  | .commit => (false, .poll)
  | .poll => if ready then (true, .finish) else (false, .poll)
  | .finish => (true, .finish)

/-- `BP_async_request_type::Phase`, with the frame of `response`. -/
inductive AsyncPhase
  | begin
  | rebegin
  | initing
  | evicting (m : ℕ)
  | evictingFinish (m : ℕ)
  | loading (m : ℕ)
  | loadingFinish (m : ℕ)
  | finish (m : ℕ)
deriving DecidableEq, Repr

/-- `BP_async_request_type`: its phase and `ssd_IO_req.async_context.state`. -/
structure AsyncRequest where
  phase : AsyncPhase
  context : ContextState
deriving DecidableEq, Repr

namespace DiskManager

/-- `IOURing::Write` of one page to a handle, when it has completed: nothing cuts the file back. -/
def writeAsync (disk : DiskManager) (fd offset : ℕ) (data : Bytes) : Except Stop DiskManager :=
  match disk.files[fd]? with
  | some entry =>
    if entry.valid then .ok ⟨disk.files.set fd { entry with file := entry.file.pwrite data pageSize offset }⟩
    else .error .badHandle
  | none => .error .badHandle

/-- No file is shorter than its recorded size. -/
def Long (disk : DiskManager) : Prop := ∀ fd, disk.getFileSizeFast fd ≤ (disk.file fd).length

/-- The same handles, and the same bytes in the files up to their recorded sizes. -/
structure SameInFiles (disk disk' : DiskManager) : Prop where
  handles : SameHandles disk disk'
  byte : ∀ fd i, i < disk.getFileSizeFast fd → disk'.byte fd i = disk.byte fd i

theorem SameInFiles.refl (disk : DiskManager) : SameInFiles disk disk := ⟨.refl _, fun _ _ _ => rfl⟩

variable {disk sync : DiskManager} {fd offset : ℕ} {data : Bytes}

/-- A completed write goes to an entry that is open. -/
theorem write_ok (written : disk.write fd offset data = .ok sync) : ∃ entry, disk.files[fd]? = some entry ∧
    entry.valid = true ∧ sync = ⟨disk.files.set fd { entry with
      file := RWSysCall.write entry.sizeInBytes entry.file offset data pageSize }⟩ := by
  unfold write at written
  cases here : disk.files[fd]? with
  | none => simp [here] at written
  | some entry =>
    simp only [here] at written
    split_ifs at written with opened
    cases written
    exact ⟨entry, rfl, opened, rfl⟩

/-- The entries after the file of one handle has got other bytes. -/
theorem setFile_files {entry : FileEntry} (here : disk.files[fd]? = some entry) (file : DiskFile) (other : ℕ) :
    (disk.files.set fd { entry with file := file })[other]? =
      if other = fd then some { entry with file := file } else disk.files[other]? := by
  have bound : fd < disk.files.length := (List.getElem?_eq_some_iff.mp here).1
  split_ifs with same
  · rw [same, List.getElem?_set_self bound]
  · rw [List.getElem?_set_ne (Ne.symm same)]

theorem setFile_size {entry : FileEntry} (here : disk.files[fd]? = some entry) (file : DiskFile) (other : ℕ) :
    (⟨disk.files.set fd { entry with file := file }⟩ : DiskManager).getFileSizeFast other =
      disk.getFileSizeFast other := by
  simp only [getFileSizeFast, setFile_files here]
  split_ifs with same
  · simp [same, here]
  · rfl

theorem setFile_file {entry : FileEntry} (here : disk.files[fd]? = some entry) (file : DiskFile) (other : ℕ) :
    (⟨disk.files.set fd { entry with file := file }⟩ : DiskManager).file other =
      if other = fd then file else disk.file other := by
  simp only [DiskManager.file, setFile_files here]
  split_ifs <;> rfl

theorem setFile_validFD {entry : FileEntry} (here : disk.files[fd]? = some entry) (file : DiskFile) (other : ℕ) :
    (⟨disk.files.set fd { entry with file := file }⟩ : DiskManager).validFD other = disk.validFD other := by
  simp only [validFD, setFile_files here]
  split_ifs with same
  · simp [same, here]
  · rfl

/-- Both writes move the same bytes up to the recorded size, and neither makes a file too short. -/
theorem writeAsync_of_write (long : disk.Long) (written : disk.write fd offset data = .ok sync) :
    sync.Long ∧ ∃ async, disk.writeAsync fd offset data = .ok async ∧ SameInFiles sync async ∧ async.Long := by
  obtain ⟨entry, here, opened, rfl⟩ := write_ok written
  have size : disk.getFileSizeFast fd = entry.sizeInBytes := by simp [getFileSizeFast, here]
  have file : disk.file fd = entry.file := by simp [DiskManager.file, here]
  have enough := long fd
  rw [size, file] at enough
  have longer (written : DiskFile) (length : entry.sizeInBytes ≤ written.length) :
      (⟨disk.files.set fd { entry with file := written }⟩ : DiskManager).Long := by
    intro other
    rw [setFile_size here, setFile_file here]
    split_ifs with same
    · rwa [same, size]
    · exact long other
  have grown : entry.sizeInBytes ≤ (entry.file.pwrite data pageSize offset).length :=
    enough.trans (by simp [DiskFile.pwrite, pageSize])
  refine ⟨longer _ ?_, _, by simp only [writeAsync, here, if_pos opened], ⟨⟨?_, ?_, ?_⟩, ?_⟩, longer _ grown⟩
  · unfold RWSysCall.write
    dsimp only
    split_ifs
    · exact le_rfl
    · exact grown
  · rw [List.length_set, List.length_set]
  · exact fun other => by rw [setFile_validFD here, setFile_validFD here]
  · exact fun other => by rw [setFile_size here, setFile_size here]
  · intro other i inside
    rw [setFile_size here] at inside
    rw [DiskManager.byte, DiskManager.byte, setFile_file here, setFile_file here]
    split_ifs with same
    · subst same
      rw [size] at inside
      rcases RWSysCall.write_byte_or entry.sizeInBytes entry.file offset data pageSize i with moved | ⟨past, _⟩
      · exact moved.symm
      · omega
    · rfl

end DiskManager

namespace BufferPool

variable {R : Type} [Replacer R]

/-- The end of states `Evicting` and `EvictingFinish`. -/
def deleteVictim (pool : BufferPool R) (m : ℕ) : Except Stop (BufferPool R) := do
  let (deleted, pageTable) ← pool.pageTable.deleteMapping (pool.pageTable.ptes m).page
  check deleted
  return { pool with pageTable := pageTable }

/-- The write-back of a victim, as `TryWait` finds it completed. -/
def awaitWrite (pool : BufferPool R) (m : ℕ) : Except Stop (BufferPool R) := do
  let old := (pool.pageTable.ptes m).page
  return { pool with disk := ← pool.disk.writeAsync old.fd (old.fpageId * pageSize) (pool.memory m) }

/-- `FetchPageAsyncInner`: whether the request has ended. `ready` is what `TryWait` returns in this call. -/
def fetchPageAsyncInner (io : AsyncRead) (page : Page) (ready : Bool) :
    ℕ → AsyncRequest → BufferPool R → Except Stop (Bool × AsyncRequest × BufferPool R)
  | 0, _, _ => .error .outOfFuel
  | fuel + 1, ⟨.begin, context⟩, pool => do
    let (locked, phase, pool) ← pool.beginPhase page
    match phase with
    | .initing => fetchPageAsyncInner io page ready fuel ⟨.initing, context⟩ pool
    | .finish m =>
      if locked then fetchPageAsyncInner io page ready fuel ⟨.finish m, context⟩ pool
      else return (false, ⟨.finish m, context⟩, pool)
    | _ =>
      if locked then fetchPageAsyncInner io page ready fuel ⟨.begin, context⟩ pool
      else return (false, ⟨.begin, context⟩, pool)
  | _ + 1, ⟨.rebegin, context⟩, pool => return (false, ⟨.rebegin, context⟩, pool)
  | fuel + 1, ⟨.initing, context⟩, pool => do
    let (phase, pool) ← pool.initingPhase
    match phase with
    | .loading m => fetchPageAsyncInner io page ready fuel ⟨.loading m, context⟩ pool
    | .evicting m => fetchPageAsyncInner io page ready fuel ⟨.evicting m, context⟩ pool
    | _ => throw .assertion
  | fuel + 1, ⟨.evicting m, context⟩, pool => do
    -- `Init` resets the context, so that a write-back is submitted here
    let (finished, context) :=
      if (pool.pageTable.ptes m).dirty then ContextState.commit.processFunc ready else (true, context)
    if finished then fetchPageAsyncInner io page ready fuel ⟨.loading m, context⟩ (← pool.deleteVictim m)
    else return (false, ⟨.evictingFinish m, context⟩, pool)
  | fuel + 1, ⟨.evictingFinish m, context⟩, pool => do
    let (finished, context) := context.processFunc ready
    if finished then
      let pool ← pool.awaitWrite m
      fetchPageAsyncInner io page ready fuel ⟨.loading m, context⟩ (← pool.deleteVictim m)
    else return (false, ⟨.evictingFinish m, context⟩, pool)
  | _ + 1, ⟨.loading m, _⟩, pool => do
    let (finished, context) := ContextState.commit.processFunc ready
    check (!finished)
    return (false, ⟨.loadingFinish m, context⟩, pool)
  | fuel + 1, ⟨.loadingFinish m, context⟩, pool => do
    let (finished, context) := context.processFunc ready
    if finished then
      let pool ← pool.awaitRead io page m
      fetchPageAsyncInner io page ready fuel ⟨.finish m, context⟩ (← pool.publish page m)
    else return (false, ⟨.loadingFinish m, context⟩, pool)
  | _ + 1, ⟨.finish m, context⟩, pool => return (true, ⟨.finish m, context⟩, pool)

end BufferPool

end Gbp
