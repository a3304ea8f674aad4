import GraphBufferPool.Manager.FrameOwners
import GraphBufferPool.Pool.FetchMachines

/-! # The page fetches of a program agree

In every state of a program that fetches, pins, writes and releases pages, each page-fetch machine of a pool
leaves it as `FetchPageSync` would.
-/

namespace Gbp.BufferPoolManager

open Function LawfulReplacer BufferPool DiskManager Fuel

variable {R : Type} [Replacer R] [LawfulReplacer R] {s : Session R} {io : AsyncRead} {page : Page} {m : ℕ}

/-- The pool of the page. -/
abbrev Session.poolOf (s : Session R) (page : Page) : BufferPool R := s.mgr.pool (s.mgr.poolOf page)

/-- A frame is free, or a replacer tracks it and no one holds its page. -/
def HasFrame (pool : BufferPool R) : Prop :=
  pool.freeList ≠ [] ∨ ∃ m ∈ frames pool.replacer, (pool.pageTable.ptes m).refCount = 0

theorem DeletingRun.machines_agree (run : DeletingRun Harmless s) (inFile : InFile s.mgr page) (delivers : Delivers io)
    {pool' : BufferPool R} (returned : Returns (fun fuel => BufferPool.fetchPageSync fuel page (s.poolOf page)) (m, pool')) :
    MachinesAgree io (s.poolOf page) page m pool' := by
  obtain ⟨place, owners⟩ := run.owners
  have inside := s.mgr.poolOf_lt page
  have inv := owners.sound.inv _ inside
  exact inv.machines_agree (inv.able (owners.sound.settled _ inside)) (owners.sound.owns inFile)
    (fun fd => (owners.exact fd trivial).ge) delivers returned

theorem DeletingRun.fetch_returns (run : DeletingRun Harmless s) (inFile : InFile s.mgr page)
    (frame : HasFrame (s.poolOf page)) :
    ∃ m pool', Returns (fun fuel => BufferPool.fetchPageSync fuel page (s.poolOf page)) (m, pool') := by
  obtain ⟨place, owners⟩ := run.owners
  have inside := s.mgr.poolOf_lt page
  have inv := owners.sound.inv _ inside
  have quiet := owners.quiet _ inside
  rcases inv.word?_cases (owners.sound.owns inFile) with ⟨k, here⟩ | ⟨k, locks⟩ | empty
  · obtain ⟨r, _, pinned, _⟩ := inv.exists_pin here
    exact ⟨k, _, Returns.congr (fun fuel => by rw [BufferPool.fetchPageSync, pinned]; rfl) .const⟩
  · exact absurd locks (quiet.not_locks k page)
  · have available : Available (s.poolOf page) (place (s.mgr.poolOf page)) := by
      rcases frame with free | ⟨k, tracked, unpinned⟩
      · exact Or.inl free
      · obtain ⟨old, here⟩ := owners.resident inside tracked
        exact Or.inr ⟨k, old, here, unpinned⟩
    obtain ⟨k, pool', loads⟩ := inv.loadPage_complete (inv.able (owners.sound.settled _ inside))
      (owners.sound.owns inFile) empty available quiet.not_orphan
    exact ⟨k, pool', (Returns.shift 4 (fetchPageSync_empty empty)).mpr (loads ▸ .const)⟩

/-- Where a frame can be had, `FetchPageSync` returns, and `FetchPageSync1` and `FetchPageSync2`, called until they are
done, end in its state. Only behind the end of the file may the frame of `FetchPageSync2` have other bytes. -/
theorem fetch_machines_agree (run : DeletingRun Harmless s) (inFile : InFile s.mgr page) (delivers : Delivers io)
    (frame : HasFrame (s.poolOf page)) : ∃ m pool' bytes,
      Returns (fun fuel => BufferPool.fetchPageSync fuel page (s.poolOf page)) (m, pool') ∧
      Settles (fun _ => True) (polls1 page) (.begin, s.poolOf page) (.finish m, pool') ∧
      Settles (fun _ => True) (polls2 io page) (.begin, s.poolOf page) (.finish m, pool'.withBytes m bytes) ∧
      InFileBytes pool' page m bytes := by
  obtain ⟨m, pool', returned⟩ := run.fetch_returns inFile frame
  have agree := run.machines_agree inFile delivers returned
  obtain ⟨bytes, inFileBytes, settles⟩ := agree.sync2
  exact ⟨m, pool', bytes, returned, agree.sync1, settles, inFileBytes⟩

/-- `pread`, as the asynchronous read of a page. -/
def preadPage : AsyncRead := fun file offset data => file.pread data pageSize offset

theorem delivers_preadPage : Delivers preadPage := by
  intro file offset data i small inside
  rw [preadPage, DiskFile.pread, if_pos]
  simp only [DiskFile.preadCount]
  omega

/-- The first page of two is stored to and released; the fetch of the second takes its frame and writes it back. -/
theorem exists_dirty : ∃ s : Session SieveReplacer_v3, DeletingRun Harmless s ∧ InFile s.mgr ⟨0, 1⟩ ∧
    HasFrame (s.poolOf ⟨0, 1⟩) ∧ (s.mgr.disk.file 0).byte 7 = 0 ∧
    ∀ m pool', Returns (fun fuel => BufferPool.fetchPageSync fuel ⟨0, 1⟩ (s.poolOf ⟨0, 1⟩)) (m, pool') →
      (pool'.disk.file 0).byte 7 = 1 := by
  have values : (do
      let (m, mgr) ← twoZeroPages.mgr.fetchPageSync 8 ⟨0, 0⟩
      let mgr := (mgr.setFrame ⟨0, 0⟩ m fun _ => 1).decRefCount ⟨0, 0⟩ m true
      let pool := mgr.pool (mgr.poolOf ⟨0, 1⟩)
      let (_, pool') ← BufferPool.fetchPageSync 8 ⟨0, 1⟩ pool
      return (m, decide (0 ∈ frames pool.replacer), (pool.pageTable.ptes 0).refCount, (mgr.disk.file 0).byte 7,
        (pool'.disk.file 0).byte 7)) = Except.ok (0, true, 0, 0, 1) := by
    decide +kernel
  obtain ⟨⟨m, mgr⟩, fetch, values⟩ := bind_eq_ok.mp values
  obtain ⟨⟨k, pool'⟩, evict, values⟩ := bind_eq_ok.mp values
  obtain ⟨rfl, values⟩ := Prod.mk.inj (Except.ok.inj values)
  obtain ⟨tracked, values⟩ := Prod.mk.inj values
  obtain ⟨unpinned, values⟩ := Prod.mk.inj values
  obtain ⟨before, after⟩ := Prod.mk.inj values
  have inFile : InFile twoZeroPages.mgr ⟨0, 0⟩ := ⟨by decide, rfl, by decide, by decide⟩
  have second : InFile twoZeroPages.mgr ⟨0, 1⟩ := ⟨by decide, rfl, by decide, by decide⟩
  have room (m : ℕ) : Room (twoZeroPages.pins (twoZeroPages.mgr.poolOf ⟨0, 0⟩)) m := by simp [Room, twoZeroPages]
  have fetched := (fetchPageSync_stable ⟨0, 0⟩ twoZeroPages.mgr).returns fetch
  have start : DeletingRun Harmless twoZeroPages := .init (.init _ _ _ _)
  obtain ⟨_, owners⟩ := start.owners
  obtain ⟨_, _, _, shape, _⟩ := owners.sound.fetched inFile room fetched
  have pin : ((⟨0, 0⟩, 0) : Page × ℕ) ∈ update twoZeroPages.pins (twoZeroPages.mgr.poolOf ⟨0, 0⟩)
      ((⟨0, 0⟩, 0) :: twoZeroPages.pins (twoZeroPages.mgr.poolOf ⟨0, 0⟩)) (mgr.poolOf ⟨0, 0⟩) := by
    rw [shape.poolOf, update_self]
    exact List.mem_cons_self
  have size : mgr.disk.getFileSizeFast 0 = 8192 := shape.handles.size 0
  have past : ∀ i < pageSize, mgr.disk.getFileSizeFast 0 ≤ Page.position ⟨0, 0⟩ i → (1 : UInt8) = mgr.frame ⟨0, 0⟩ 0 i := by
    intro i inside behind
    simp only [size, Page.position, pageSize] at behind inside
    omega
  have stored : SameShape mgr ((mgr.setFrame ⟨0, 0⟩ 0 fun _ => 1).decRefCount ⟨0, 0⟩ 0 true) := ⟨rfl, rfl, .refl _⟩
  have run := (start.step (.fetch inFile room fetched)).step (.write (shape.inFile inFile) pin (fun _ => 1) past)
  refine ⟨_, run, (shape.trans stored).inFile second, Or.inr ⟨0, of_decide_eq_true tracked, unpinned⟩, before, ?_⟩
  intro m pool'' returned
  have same := ((BufferPool.fetchPageSync_stable _ _).returns evict).unique returned
  rw [← (Prod.mk.inj same).2]
  exact after

theorem fetch_machines_agree_evicted : ∃ (s : Session SieveReplacer_v3) (m : ℕ) (pool' : BufferPool SieveReplacer_v3)
    (bytes : Bytes), (s.mgr.disk.file 0).byte 7 = 0 ∧ (pool'.disk.file 0).byte 7 = 1 ∧
    Returns (fun fuel => BufferPool.fetchPageSync fuel ⟨0, 1⟩ (s.poolOf ⟨0, 1⟩)) (m, pool') ∧
    Settles (fun _ => True) (polls1 ⟨0, 1⟩) (.begin, s.poolOf ⟨0, 1⟩) (.finish m, pool') ∧
    Settles (fun _ => True) (polls2 preadPage ⟨0, 1⟩) (.begin, s.poolOf ⟨0, 1⟩)
      (.finish m, pool'.withBytes m bytes) ∧ InFileBytes pool' ⟨0, 1⟩ m bytes := by
  obtain ⟨s, run, inFile, frame, before, after⟩ := exists_dirty
  obtain ⟨m, pool', bytes, returned, agree⟩ := fetch_machines_agree run inFile delivers_preadPage frame
  exact ⟨s, m, pool', bytes, before, after m pool' returned, returned, agree⟩

/-- Whatever its write-backs and reads take, `FetchPageAsyncInner` ends with the same frame, entries, mappings, free
list and replacer as `FetchPageSync`, and with the same bytes in the frame and on the disk up to the recorded sizes
of the files. It ends if its calls find the pending request completed again and again. -/
theorem async_fetch_agrees (run : DeletingRun Harmless s) (inFile : InFile s.mgr page) (delivers : Delivers io)
    (frame : HasFrame (s.poolOf page)) (context : ContextState) : ∃ m pool' context' bytes disk,
      Returns (fun fuel => BufferPool.fetchPageSync fuel page (s.poolOf page)) (m, pool') ∧
      Settles (· = true) (pollsAsync io page) (⟨.begin, context⟩, s.poolOf page)
        (⟨.finish m, context'⟩, { pool'.withBytes m bytes with disk := disk }) ∧
      InFileBytes pool' page m bytes ∧ SameInFiles pool'.disk disk := by
  obtain ⟨m, pool', returned⟩ := run.fetch_returns inFile frame
  obtain ⟨context', bytes, disk, inFileBytes, same, settles⟩ := (run.machines_agree inFile delivers returned).async context
  exact ⟨m, pool', context', bytes, disk, returned, settles, inFileBytes, same⟩

theorem async_fetch_agrees_evicted : ∃ (s : Session SieveReplacer_v3) (m : ℕ) (pool' : BufferPool SieveReplacer_v3)
    (context' : ContextState) (bytes : Bytes) (disk : DiskManager),
    (s.mgr.disk.file 0).byte 7 = 0 ∧ (pool'.disk.file 0).byte 7 = 1 ∧
    Returns (fun fuel => BufferPool.fetchPageSync fuel ⟨0, 1⟩ (s.poolOf ⟨0, 1⟩)) (m, pool') ∧
    Settles (· = true) (pollsAsync preadPage ⟨0, 1⟩) (⟨.begin, .commit⟩, s.poolOf ⟨0, 1⟩)
      (⟨.finish m, context'⟩, { pool'.withBytes m bytes with disk := disk }) ∧
    InFileBytes pool' ⟨0, 1⟩ m bytes ∧ SameInFiles pool'.disk disk := by
  obtain ⟨s, run, inFile, frame, before, after⟩ := exists_dirty
  obtain ⟨m, pool', context', bytes, disk, returned, agree⟩ :=
    async_fetch_agrees run inFile delivers_preadPage frame .commit
  exact ⟨s, m, pool', context', bytes, disk, before, after m pool' returned, returned, agree⟩

end Gbp.BufferPoolManager
