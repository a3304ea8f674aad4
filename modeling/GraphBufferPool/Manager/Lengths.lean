import GraphBufferPool.Lib.Reach
import GraphBufferPool.Manager.Files
import GraphBufferPool.Pool.Actions

/-! # The lengths of the files on disk

`RWSysCall::Write` cuts the file back to its recorded size when the page reaches past it, by an
unsigned difference that wraps around for a page behind the end. So the length of a file stays the
recorded one exactly as long as no page that starts behind the end is written back, which a `Resize`
under a cached dirty page lets happen.
-/

namespace Gbp

open Relation

namespace DiskManager

/-- Every file is as long as its recorded size. -/
def Exact (disk : DiskManager) : Prop := ∀ fd, (disk.file fd).length = disk.getFileSizeFast fd

/-- The file is as long as its recorded size. -/
def ExactAt (disk : DiskManager) (fd : ℕ) : Prop := (disk.file fd).length = disk.getFileSizeFast fd

variable {disk disk' : DiskManager}

theorem Exact.openFile (exact : disk.Exact) (file : OsFile) : (disk.openFile file).2.Exact := by
  intro fd
  rw [openFile_file, openFile_size]
  split_ifs
  · rfl
  · exact exact fd

theorem Exact.withSize (exact : disk.Exact) (fd newSize : ℕ) (bound : newSize < 2 ^ 64) :
    (disk.withSize fd newSize bound).Exact := by
  intro other
  have before := exact other
  simp only [DiskManager.withSize, DiskManager.file, getFileSizeFast, List.getElem?_modify] at before ⊢
  cases here : disk.files[other]? with
  | none => rfl
  | some entry =>
    rw [here] at before
    by_cases same : fd = other
    · simp [same, DiskFile.ftruncate]
    · simpa [same] using before

/-- Only open files are written. -/
theorem valid_of_write {fd offset : ℕ} {data : Bytes} (ran : disk.write fd offset data = .ok disk') :
    disk.validFD fd = true := by
  simp only [write] at ran
  split at ran
  · rename_i entry here
    split_ifs at ran with opened
    simp [validFD, here, opened]
  · cases ran

/-- A page written back to an exact file keeps it exact where it starts in the file or at its end. -/
theorem exact_write_iff (exact : disk.Exact) {page : Page} (bound : page.fpageId < fpageIdRange)
    {data : Bytes} (ran : disk.write page.fd (page.fpageId * pageSize) data = .ok disk') :
    disk'.Exact ↔ page.fpageId * pageSize ≤ disk.getFileSizeFast page.fd := by
  have valid := valid_of_write ran
  have fits : page.fpageId * pageSize + pageSize ≤ 2 ^ 64 := by
    simp only [pageSize, fpageIdRange] at *
    omega
  obtain ⟨_, ran', same, files⟩ := exists_write valid (page.fpageId * pageSize) data
  cases ran'.symm.trans ran
  rw [← RWSysCall.write_length_iff (exact page.fd) (disk.getFileSizeFast_lt _) fits (by decide) data]
  constructor
  · intro after
    have here := after page.fd
    rwa [files, if_pos rfl, same.size] at here
  · intro here fd
    rw [files, same.size]
    split_ifs with mine
    · rw [mine, here]
    · exact exact fd

/-- A page written back to a file where it starts in the file keeps that file as long as its size, and the others. -/
theorem ExactAt.write {fd : ℕ} (exact : disk.ExactAt fd) {page : Page} (bound : page.fpageId < fpageIdRange)
    (start : page.fd = fd → page.fpageId * pageSize ≤ disk.getFileSizeFast fd) {data : Bytes}
    (ran : disk.write page.fd (page.fpageId * pageSize) data = .ok disk') : disk'.ExactAt fd := by
  obtain ⟨_, ran', same, files⟩ := exists_write (valid_of_write ran) (page.fpageId * pageSize) data
  cases ran'.symm.trans ran
  rw [ExactAt, files, same.size]
  split_ifs with mine
  · have fits : page.fpageId * pageSize + pageSize ≤ 2 ^ 64 := by
      simp only [pageSize, fpageIdRange] at *
      omega
    rw [ExactAt, mine] at exact
    rw [mine] at start
    rw [mine]
    exact (RWSysCall.write_length_iff exact (disk.getFileSizeFast_lt _) fits (by decide) data).mpr (start rfl)
  · exact exact

end DiskManager

namespace BufferPool

variable {R : Type} [Replacer R] {pool pool' : BufferPool R}

/-- The page of the file that an action writes back. -/
def writesBack (pool : BufferPool R) : Action → Option Page
  | .evicting m => if (pool.pageTable.ptes m).dirty then some (pool.pageTable.ptes m).page else none
  | .flushPage page _ _ =>
    match pool.pageTable.lockMapping page with
    | .ok (some (.frame m), pageTable) =>
      if (pageTable.ptes m).dirty then some ⟨(pageTable.ptes m).fdCur, page.fpageId⟩ else none
    | _ => none
  | _ => none

private theorem pin_disk {page : Page} {result : Option ℕ × BufferPool R}
    (ran : pool.pin page = .ok result) : result.2.disk = pool.disk := by
  obtain ⟨word, _, ran⟩ := bind_eq_ok.mp ran
  cases word with
  | empty | busy =>
    cases ran
    rfl
  | frame m =>
    dsimp only at ran
    split_ifs at ran with counted
    · obtain ⟨⟨promoted, r⟩, _, ran⟩ := bind_eq_ok.mp ran
      obtain ⟨_, _, ran⟩ := bind_eq_ok.mp ran
      cases ran
      rfl
    · cases ran
      rfl

private theorem beginPhase_disk {page : Page} {result : Bool × Phase × BufferPool R}
    (ran : pool.beginPhase page = .ok result) : result.2.2.disk = pool.disk := by
  obtain ⟨⟨locked, pageTable⟩, _, ran⟩ := bind_eq_ok.mp ran
  have unlocked (value : MapWord) (ran : (pageTable.unLockMapping page value >>= fun released => do
      check released.1
      let pinned ← { pool with pageTable := released.2 }.pin page
      return (true, Phase.ofPin pinned.1, pinned.2)) = Except.ok result) : result.2.2.disk = pool.disk := by
    obtain ⟨⟨_, pageTable⟩, _, ran⟩ := bind_eq_ok.mp ran
    obtain ⟨_, _, ran⟩ := bind_eq_ok.mp ran
    obtain ⟨_, pinned, ran⟩ := bind_eq_ok.mp ran
    have same := pin_disk pinned
    cases ran
    exact same
  cases locked with
  | none =>
    obtain ⟨_, pinned, ran⟩ := bind_eq_ok.mp ran
    have same := pin_disk pinned
    cases ran
    exact same
  | some value =>
    cases value with
    | empty =>
      cases ran
      rfl
    | busy => exact unlocked _ ran
    | frame m => exact unlocked _ ran

private theorem initingPhase_disk {result : Phase × BufferPool R}
    (ran : pool.initingPhase = .ok result) : result.2.disk = pool.disk := by
  unfold initingPhase at ran
  split at ran
  · cases ran
    rfl
  · obtain ⟨⟨victim, r, pageTable⟩, _, ran⟩ := bind_eq_ok.mp ran
    cases victim with
    | none => cases ran
    | some m =>
      cases ran
      rfl

/-- An action changes the disk by the page it writes back and by nothing else. -/
theorem act_disk {action : Action} (ran : pool.act action = .ok pool') :
    match pool.writesBack action with
    | some page => page.fpageId < fpageIdRange ∧
        ∃ data, pool.disk.write page.fd (page.fpageId * pageSize) data = .ok pool'.disk
    | none => pool'.disk = pool.disk := by
  cases action with
  | pin page =>
    obtain ⟨_, pinned, ran⟩ := bind_eq_ok.mp ran
    cases ran
    exact pin_disk pinned
  | begin page =>
    obtain ⟨_, began, ran⟩ := bind_eq_ok.mp ran
    cases ran
    exact beginPhase_disk began
  | initing =>
    obtain ⟨_, chosen, ran⟩ := bind_eq_ok.mp ran
    cases ran
    exact initingPhase_disk chosen
  | evicting m =>
    simp only [act, evictingPhase] at ran
    split_ifs at ran with dirty
    · obtain ⟨disk, wrote, ran⟩ := bind_eq_ok.mp ran
      obtain ⟨_, _, ran⟩ := bind_eq_ok.mp ran
      obtain ⟨_, _, ran⟩ := bind_eq_ok.mp ran
      cases ran
      simp only [writesBack, dirty, if_true]
      exact ⟨(pool.pageTable.ptes m).fpageIdCur_lt, _, wrote⟩
    · rw [pure_bind] at ran
      obtain ⟨_, _, ran⟩ := bind_eq_ok.mp ran
      obtain ⟨_, _, ran⟩ := bind_eq_ok.mp ran
      cases ran
      simp only [writesBack, dirty, Bool.false_eq_true, if_false]
  | read page m =>
    obtain ⟨_, _, ran⟩ := bind_eq_ok.mp ran
    cases ran
    rfl
  | publish page m =>
    obtain ⟨_, _, ran⟩ := bind_eq_ok.mp ran
    obtain ⟨_, _, ran⟩ := bind_eq_ok.mp ran
    obtain ⟨_, _, ran⟩ := bind_eq_ok.mp ran
    obtain ⟨_, _, ran⟩ := bind_eq_ok.mp ran
    cases ran
    rfl
  | decRefCount m isWrite =>
    cases ran
    rfl
  | store m bytes =>
    cases ran
    rfl
  | flushPage page bound deleteFromMemory =>
    obtain ⟨result, flushed, ran⟩ := bind_eq_ok.mp ran
    cases ran
    obtain ⟨⟨locked, pageTable⟩, lock, flushed⟩ := bind_eq_ok.mp flushed
    simp only [writesBack, lock]
    cases locked with
    | none =>
      cases flushed
      rfl
    | some value =>
      cases value with
      | frame m =>
        have finish (written : BufferPool R) (finished : (if deleteFromMemory = true then
            written.pageTable.deleteMapping page >>= fun deleted => do
              check deleted.1
              return (true, { written with pageTable := deleted.2, freeList := written.freeList ++ [m] })
            else return (true, written)) = Except.ok result) : result.2.disk = written.disk := by
          split_ifs at finished
          · obtain ⟨_, _, finished⟩ := bind_eq_ok.mp finished
            obtain ⟨_, _, finished⟩ := bind_eq_ok.mp finished
            cases finished
            rfl
          · cases finished
            rfl
        cases dirty : (pageTable.ptes m).dirty with
        | true =>
          simp only [dirty, if_true] at flushed ⊢
          obtain ⟨disk, wrote, flushed⟩ := bind_eq_ok.mp flushed
          rw [finish _ flushed]
          exact ⟨bound, _, wrote⟩
        | false =>
          simp only [dirty, Bool.false_eq_true, if_false] at flushed ⊢
          rw [pure_bind] at flushed
          exact finish { pool with pageTable := pageTable } flushed
      | empty | busy =>
        obtain ⟨_, _, flushed⟩ := bind_eq_ok.mp flushed
        obtain ⟨_, _, flushed⟩ := bind_eq_ok.mp flushed
        cases flushed
        rfl

end BufferPool

namespace BufferPoolManager

open DiskManager BufferPool Machine

variable {R : Type} [Replacer R] {mgr mgr' : BufferPoolManager R}

/-- What changes the files or the pools: the calls on files, and the actions of a pool. -/
inductive FileOp
  | openFile (file : OsFile)
  | resize (fd newSize : ℕ) (bound : newSize < 2 ^ 64)
  | pool (i : ℕ) (action : Action)

/-- The manager after an operation. -/
def run (mgr : BufferPoolManager R) : FileOp → Except Stop (BufferPoolManager R)
  | .openFile file => do return (← mgr.openFile file).2
  | .resize fd newSize bound => mgr.resize fd newSize bound
  | .pool i action => do return mgr.setPool i (← (mgr.pool i).act action)

/-- The page that an operation writes back, if any, starts in its file or at the end of it. -/
def Within (mgr : BufferPoolManager R) : FileOp → Prop
  | .pool i action => ∀ page, (mgr.pool i).writesBack action = some page →
      page.fpageId * pageSize ≤ mgr.disk.getFileSizeFast page.fd
  | _ => True

/-- Some operation leads from one state to the other. -/
def Runs (mgr mgr' : BufferPoolManager R) : Prop := ∃ op, mgr.run op = .ok mgr'

/-- The same by an operation that writes no page back behind the end of its file. -/
def RunsWithin (mgr mgr' : BufferPoolManager R) : Prop := ∃ op, mgr.run op = .ok mgr' ∧ mgr.Within op

/-- The states after `init`. -/
def Initial (mgr : BufferPoolManager R) : Prop :=
  ∃ part poolSize memory file, mgr = .init part poolSize memory file

/-- An operation keeps the lengths exact if and only if it writes no page back behind the end of its
file. -/
theorem exact_run_iff {op : FileOp} (exact : mgr.disk.Exact) (ran : mgr.run op = .ok mgr') :
    mgr'.disk.Exact ↔ mgr.Within op := by
  cases op with
  | openFile file =>
    obtain ⟨opened, returned, opens⟩ := exists_openFile mgr file
    simp only [run, returned] at ran
    cases ran
    rw [opens.disk]
    exact iff_of_true (exact.openFile file) trivial
  | resize fd newSize bound =>
    obtain ⟨_, _, resizes⟩ := resize_returned ran
    rw [resizes.disk]
    exact iff_of_true (exact.withSize fd newSize bound) trivial
  | pool i action =>
    obtain ⟨pool', acted, ran⟩ := bind_eq_ok.mp ran
    cases ran
    have changed := act_disk acted
    change pool'.disk.Exact ↔ ∀ page, (mgr.pool i).writesBack action = some page → _
    cases back : (mgr.pool i).writesBack action with
    | none =>
      rw [back] at changed
      rw [changed]
      exact iff_of_true exact nofun
    | some page =>
      rw [back] at changed
      obtain ⟨bound, data, wrote⟩ := changed
      rw [exact_write_iff exact bound wrote]
      exact ⟨fun inside _ same => Option.some.inj same ▸ inside, fun inside => inside page rfl⟩

/-- In every run that writes no page back behind the end of its file, the lengths are exact. -/
theorem exact_of_runsWithin (reached : Reach Initial RunsWithin mgr) : mgr.disk.Exact := by
  refine @Reach.invariant _ _ _ (fun mgr : BufferPoolManager R => mgr.disk.Exact) ?_ ?_ _ reached
  · rintro _ ⟨part, poolSize, memory, file, rfl⟩
    exact Exact.openFile (show (⟨[]⟩ : DiskManager).Exact from fun _ => rfl) file
  · rintro _ _ exact ⟨op, ran, within⟩
    exact (exact_run_iff exact ran).mpr within

section calls

variable {page : Page} {fuel : ℕ}

/-- The actions of a call of a pool are operations of the manager. -/
theorem runs_of_acts {i : ℕ} {pool' : BufferPool R} (acts : TransGen Acts (mgr.pool i) pool') :
    ReflTransGen Runs mgr (mgr.setPool i pool') := by
  induction acts with
  | single act =>
    obtain ⟨action, acted⟩ := act
    exact .single ⟨.pool i action, by simp only [run, acted]; rfl⟩
  | @tail before after _ act ih =>
    obtain ⟨action, acted⟩ := act
    refine ih.tail ⟨.pool i action, ?_⟩
    have here : (mgr.setPool i before).pool i = before := setPool_pool_self i before
    have again : (mgr.setPool i before).setPool i after = mgr.setPool i after := by
      simp only [setPool, Function.update_idem]
    simp only [run, here, acted]
    exact congrArg Except.ok again

theorem fetchPageSync_runs {result : ℕ × BufferPoolManager R}
    (ran : mgr.fetchPageSync fuel page = .ok result) : ReflTransGen Runs mgr result.2 := by
  obtain ⟨⟨m, pool⟩, fetched, ran⟩ := bind_eq_ok.mp ran
  cases ran
  exact runs_of_acts (fetchPageSync_acts fetched)

theorem flushPage_runs {fpageId fd : ℕ} {deleteFromMemory : Bool} {result : Bool × BufferPoolManager R}
    (ran : mgr.flushPage fpageId fd deleteFromMemory = .ok result) : ReflTransGen Runs mgr result.2 := by
  obtain ⟨⟨flushed, pool⟩, done, ran⟩ := bind_eq_ok.mp ran
  cases ran
  refine runs_of_acts (.single ⟨.flushPage ⟨fd, fpageId % fpageIdRange⟩ ?_ deleteFromMemory, ?_⟩)
  · exact Nat.mod_lt _ (by decide)
  · simp only [act, done]
    rfl

theorem decRefCount_runs (page : Page) (m : ℕ) (isWrite : Bool) :
    ReflTransGen Runs mgr (mgr.decRefCount page m isWrite) :=
  runs_of_acts (.single ⟨.decRefCount m isWrite, rfl⟩)

theorem setFrame_runs (page : Page) (m : ℕ) (bytes : Bytes) :
    ReflTransGen Runs mgr (mgr.setFrame page m bytes) :=
  runs_of_acts (.single ⟨.store m bytes, rfl⟩)

/-- A loop over pages relates its states as its visits do. -/
theorem blockLoop_relates {σ : Type} {rel : σ → σ → Prop} (refl : ∀ s, rel s s)
    (trans : ∀ {s t u}, rel s t → rel t u → rel s u)
    {body : ℕ → ℕ → ℕ → ℕ → ℕ → σ → Except Stop (ℕ × σ)}
    (visits : ∀ fuel fpageId fpageOffset left done s n s',
      body fuel fpageId fpageOffset left done s = .ok (n, s') → rel s s')
    {fuel fpageId fpageOffset left done : ℕ} {s s' : σ}
    (ran : blockLoop body fuel fpageId fpageOffset left done s = .ok s') : rel s s' := by
  induction fuel generalizing fpageId fpageOffset left done s with
  | zero => cases ran
  | succ fuel ih =>
    simp only [blockLoop] at ran
    split_ifs at ran with ended
    · cases ran
      exact refl _
    · obtain ⟨⟨n, next⟩, visited, ran⟩ := bind_eq_ok.mp ran
      exact trans (visits _ _ _ _ _ _ _ _ visited) (ih ran)

/-- `SetBlock` is a sequence of operations. -/
theorem setBlock_runs {buf : Bytes} {fileOffset blockSize fd : ℕ} {flush : Bool}
    (ran : mgr.setBlock fuel buf fileOffset blockSize fd flush = .ok mgr') : ReflTransGen Runs mgr mgr' := by
  refine blockLoop_relates (fun _ => .refl) (fun before after => before.trans after) ?_ ran
  intro fuel fpageId fpageOffset left done mgr n mgr' visited
  obtain ⟨⟨m, fetched⟩, fetch, visited⟩ := bind_eq_ok.mp visited
  have stored (bytes : Bytes) : ReflTransGen Runs mgr
      ((fetched.setFrame ⟨fd, fpageId⟩ m bytes).decRefCount ⟨fd, fpageId⟩ m true) :=
    ((fetchPageSync_runs fetch).trans (setFrame_runs ⟨fd, fpageId⟩ m bytes)).trans
      (decRefCount_runs ⟨fd, fpageId⟩ m true)
  cases flush with
  | false =>
    cases visited
    exact stored _
  | true =>
    obtain ⟨⟨flushed, next⟩, flush, visited⟩ := bind_eq_ok.mp visited
    obtain ⟨_, _, visited⟩ := bind_eq_ok.mp visited
    cases visited
    exact (stored _).trans (flushPage_runs flush)

/-- `GetBlock` is a sequence of operations. -/
theorem getBlock_runs {buf : Bytes} {fileOffset blockSize fd : ℕ} {result : Bytes × BufferPoolManager R}
    (ran : mgr.getBlock fuel buf fileOffset blockSize fd = .ok result) :
    ReflTransGen Runs mgr result.2 := by
  refine @blockLoop_relates _ (fun s s' : Bytes × BufferPoolManager R => ReflTransGen Runs s.2 s'.2)
    (fun _ => .refl) (fun before after => before.trans after) _ ?_ _ _ _ _ _ _ _ ran
  intro fuel fpageId fpageOffset left done s n s' visited
  obtain ⟨⟨m, fetched⟩, fetch, visited⟩ := bind_eq_ok.mp visited
  cases visited
  exact (fetchPageSync_runs fetch).trans (decRefCount_runs ⟨fd, fpageId⟩ m false)

end calls

/-- One frame and a file of three pages. -/
def threePages : BufferPoolManager SieveReplacer_v3 := oneFrame (zeroFile 12288 (by decide))

instance (op : FileOp) : Decidable (mgr.Within op) :=
  match op with
  | .pool i action =>
    match writes : (mgr.pool i).writesBack action with
    | some page =>
      decidable_of_iff (page.fpageId * pageSize ≤ mgr.disk.getFileSizeFast page.fd) (by simp [Within, writes])
    | none => isTrue (by simp [Within, writes])
  | .openFile _ | .resize .. => isTrue trivial

/-- The operations one after the other, while they write no page back behind the end of its file. -/
def runWithin (mgr : BufferPoolManager R) : List FileOp → Except Stop (BufferPoolManager R)
  | [] => .ok mgr
  | op :: rest => if mgr.Within op then mgr.run op >>= fun mgr => runWithin mgr rest else .error .assertion

theorem reach_runWithin {ops : List FileOp} (reached : Reach Initial RunsWithin mgr)
    (ran : mgr.runWithin ops = .ok mgr') :
    Reach Initial RunsWithin mgr' := by
  induction ops generalizing mgr with
  | nil =>
    cases ran
    exact reached
  | cons op rest ih =>
    rw [runWithin] at ran
    split_ifs at ran with within
    obtain ⟨mid, moved, ran⟩ := bind_eq_ok.mp ran
    exact ih (reached.step ⟨op, moved, within⟩) ran

/-- Page 0 is loaded, stored to and evicted for page 1; then the file is cut to one page. -/
def evictAndResize : List FileOp := [.pool 0 (.begin ⟨0, 0⟩), .pool 0 .initing, .pool 0 (.read ⟨0, 0⟩ 0),
  .pool 0 (.publish ⟨0, 0⟩ 0), .pool 0 (.store 0 fun _ => 1), .pool 0 (.decRefCount 0 true), .pool 0 (.begin ⟨0, 1⟩),
  .pool 0 .initing, .pool 0 (.evicting 0), .resize 0 4096 (by decide)]

/-- `SetBlock` on the last page, a `Resize` that cuts it off, and a read that evicts it. -/
def evictBehindEnd : Except Stop (BufferPoolManager SieveReplacer_v3) := do
  let mgr ← threePages.setBlock 8 (fun _ => 1) 8192 1 0 false
  let mgr ← mgr.resize 0 4096 (by decide)
  let (_, mgr) ← mgr.getBlock 8 (fun _ => 0) 0 1 0
  return mgr

end BufferPoolManager

end Gbp
