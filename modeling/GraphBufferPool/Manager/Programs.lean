import GraphBufferPool.Manager.Watching

/-! # Programs that hold pages and close files

Runs of the manager by a program that pins pages and lets go of them in any order, and opens, resizes and closes files.
The frames of a closed file stay orphans. No replacer is cleared, so that each stays ready to find a victim.
-/

namespace Gbp

open Function LawfulReplacer DiskManager Fuel Machine

namespace BufferPoolManager

open BufferPool

section model

variable {R : Type} [Replacer R]

/-- A step of a program that may also close a file of which no one holds a page. -/
inductive ProgramStep : Session R → Session R → Prop
  | session {s s' : Session R} (step : SessionStep s s') : ProgramStep s s'
  | closeFile {s : Session R} {fd : ℕ} {mgr' : BufferPoolManager R} (range : InRange s.mgr fd 0 0)
      (unheld : Unheld s.pins fd) (ran : s.mgr.closeFile fd = .ok mgr') : ProgramStep s ⟨mgr', s.content, s.pins⟩

/-- The states in which such a program calls the manager. -/
abbrev ProgramRun (s : Session R) : Prop := Reach SessionStart ProgramStep s

end model

variable {R : Type} [Replacer R] [LawfulReplacer R]

/-- What holds in every state of such a program; `K` says which bytes are known and `F` which files are watched. -/
structure Caches (K : ℕ → ℕ → Prop) (F : ℕ → Prop) (content : Content) (mgr : BufferPoolManager R)
    (place : ℕ → ℕ → Place) (pins : ℕ → List (Page × ℕ)) : Prop extends Watches K F content mgr place pins where
  ready : ∀ i < mgr.partitioner.numPartitions, Ready (mgr.pool i).replacer

variable {K : ℕ → ℕ → Prop} {F F' : ℕ → Prop} {content : Content} {mgr mgr' : BufferPoolManager R}
  {place : ℕ → ℕ → Place} {pins : ℕ → List (Page × ℕ)} {page : Page} {fd i m : ℕ}

theorem Caches.rests (caches : Caches K F content mgr place pins) (inside : i < mgr.partitioner.numPartitions) :
    Rests (mgr.pool i) (place i) (pins i) :=
  ⟨caches.sound.inv i inside, caches.strict i inside, caches.ready i inside, caches.unlocked i inside⟩

/-- Fewer files are watched. -/
theorem Caches.mono (caches : Caches K F content mgr place pins) (fewer : ∀ fd, F' fd → F fd) :
    Caches K F' content mgr place pins :=
  ⟨caches.toWatches.mono fewer, caches.ready⟩

/-- Calls that leave the replacers as they are. -/
theorem Caches.same (caches : Caches K F content mgr place pins) {K' : ℕ → ℕ → Prop} {content' : Content}
    {place' : ℕ → ℕ → Place} {pins' : ℕ → List (Page × ℕ)} (watches : Watches K' F' content' mgr' place' pins')
    (partitioner : mgr'.partitioner = mgr.partitioner)
    (same : ∀ i < mgr.partitioner.numPartitions, (mgr'.pools i).replacer = (mgr.pools i).replacer) :
    Caches K' F' content' mgr' place' pins' := by
  refine ⟨watches, fun i inside => ?_⟩
  rw [partitioner] at inside
  change Ready (mgr'.pools i).replacer
  rw [same i inside]
  exact caches.ready i inside

/-- The new file is watched from the start. -/
theorem Caches.openFile (caches : Caches K F content mgr place pins) {file : OsFile} (opens : Opens mgr file mgr') :
    Caches K (fun fd => F fd ∨ fd = mgr.disk.files.length) (opened content mgr.disk.files.length file.1) mgr'
      place pins :=
  caches.same (caches.toWatches.openFile opens) opens.partitioner opens.replacers

/-- A file that is closed. -/
theorem Caches.closeFile (caches : Caches K F content mgr place pins) (range : InRange mgr fd 0 0)
    (unheld : Unheld pins fd) : ∃ mgr', mgr.closeFile fd = .ok mgr' ∧ Closes K content mgr place pins fd mgr' ∧
      Caches (fun other i => other ≠ fd ∧ K other i) F content mgr' (fun i m => (place i m).closed fd) pins := by
  obtain ⟨mgr', ran, closes, watches⟩ := caches.toWatches.closeFile range unheld
  exact ⟨mgr', ran, closes, caches.same watches closes.partitioner (closeFile_replacers ran)⟩

/-- A fetch. -/
theorem Caches.fetch (caches : Caches K F content mgr place pins) (inFile : InFile mgr page)
    (room : ∀ m, Room (pins (mgr.poolOf page)) m)
    (ran : Returns (fun fuel => mgr.fetchPageSync fuel page) (m, mgr')) : ∃ pool' place',
      mgr' = mgr.setPool (mgr.poolOf page) pool' ∧ SameShape mgr mgr' ∧
      Serves (mgr.pool (mgr.poolOf page)) (place (mgr.poolOf page)) page m pool' ∧
      Fetched (mgr.pool (mgr.poolOf page)) (place (mgr.poolOf page)) page m pool' place' ∧
      Caches K F content mgr' (update place (mgr.poolOf page) place')
        (update pins (mgr.poolOf page) ((page, m) :: pins (mgr.poolOf page))) := by
  obtain ⟨pool', place', rfl, shape, serves, fetched, watches⟩ := caches.toWatches.fetch inFile room ran
  refine ⟨pool', place', rfl, shape, serves, fetched, watches, fun i inside => ?_⟩
  by_cases same : i = mgr.poolOf page
  · rw [same, setPool_pool_self]
    have ready := caches.ready _ (mgr.poolOf_lt page)
    cases fetched with
    | hit _ r frames => exact frames.ready ready
    | load _ _ _ _ loaded => exact loaded.ready ready
  · rw [setPool_pool_of_ne _ same]
    exact caches.ready i inside

/-- Releasing a page. -/
theorem Caches.release (caches : Caches K F content mgr place pins) (pin : (page, m) ∈ pins (mgr.poolOf page))
    (isWrite : Bool) : Caches K F content (mgr.decRefCount page m isWrite) place
      (update pins (mgr.poolOf page) ((pins (mgr.poolOf page)).erase (page, m))) :=
  caches.same (caches.toWatches.release pin isWrite) rfl fun i _ => mgr.decRefCount_replacers page m isWrite i

/-- Storing to a page, which is then released. -/
theorem Caches.write (caches : Caches K F content mgr place pins) (inFile : InFile mgr page)
    (pin : (page, m) ∈ pins (mgr.poolOf page)) {bytes : Bytes}
    (past : ∀ i < pageSize, mgr.disk.getFileSizeFast page.fd ≤ page.position i → bytes i = mgr.frame page m i) :
    Caches K F (stored content page bytes) ((mgr.setFrame page m bytes).decRefCount page m true) place
      (update pins (mgr.poolOf page) ((pins (mgr.poolOf page)).erase (page, m))) :=
  caches.same (caches.toWatches.write inFile pin past) rfl fun i _ => mgr.write_replacers page m bytes i

theorem SessionStart.caches {s : Session R} (start : SessionStart s) :
    ∃ place, Caches (fun _ _ => True) (fun _ => True) s.content s.mgr place s.pins := by
  cases start with
  | init part poolSize memory file =>
    have opens := @opens_init R _ part poolSize memory file
    have caches : Caches _ _ _ _ _ _ := ⟨@blank_watches R _ _ part poolSize memory, fun _ _ => ready_new poolSize⟩
    exact ⟨_, (caches.openFile opens).mono fun _ => Or.inl⟩

/-- A step that keeps the sizes of the watched files. -/
theorem SessionStep.caches {s s' : Session R} (step : SessionStep s s')
    (caches : Caches K F s.content s.mgr place s.pins)
    (keeps : ∀ fd, F fd → s'.mgr.disk.getFileSizeFast fd = s.mgr.disk.getFileSizeFast fd) :
    ∃ place', Caches K F s'.content s'.mgr place' s'.pins := by
  cases step with
  | openFile file ran =>
    obtain ⟨_, returned, opens⟩ := exists_openFile _ file
    cases returned.symm.trans ran
    exact ⟨place, (caches.openFile opens).mono fun _ => Or.inl⟩
  | resize bound valid clean ran =>
    obtain ⟨_, _, resizes⟩ := resize_returned ran
    have watches := caches.toWatches.resize clean ran keeps
    exact ⟨place, caches.same watches resizes.partitioner (resize_replacers ran)⟩
  | fetch inFile room ran =>
    obtain ⟨_, _, _, _, _, _, caches'⟩ := caches.fetch inFile room ran
    exact ⟨_, caches'⟩
  | release pin isWrite => exact ⟨place, caches.release pin isWrite⟩
  | write inFile pin bytes past => exact ⟨place, caches.write inFile pin past⟩

/-- A step that leaves the watched files open and as long as they are. -/
theorem ProgramStep.caches {s s' : Session R} (step : ProgramStep s s')
    (caches : Caches K F s.content s.mgr place s.pins)
    (keeps : ∀ fd, F fd → s'.mgr.disk.getFileSizeFast fd = s.mgr.disk.getFileSizeFast fd) :
    ∃ K' place', Caches K' F s'.content s'.mgr place' s'.pins := by
  cases step with
  | session step =>
    obtain ⟨place', caches'⟩ := step.caches caches keeps
    exact ⟨K, place', caches'⟩
  | closeFile range unheld ran =>
    obtain ⟨_, returned, _, caches'⟩ := caches.closeFile range unheld
    cases returned.symm.trans ran
    exact ⟨_, _, caches'⟩

theorem ProgramRun.caches {s : Session R} (run : ProgramRun s) :
    ∃ K place, Caches K (fun _ => False) s.content s.mgr place s.pins := by
  induction run with
  | init start =>
    obtain ⟨place, caches⟩ := start.caches
    exact ⟨_, place, caches.mono fun _ => False.elim⟩
  | step _ step ih =>
    obtain ⟨K, place, caches⟩ := ih
    exact step.caches caches fun _ => False.elim

section blocks

variable {fileOffset n : ℕ} {buf : Bytes}

omit [LawfulReplacer R] in
/-- A store within one page visits it once. -/
theorem setBlock_inPage (positive : 0 < n) (within : fileOffset % pageSize + n ≤ pageSize)
    (bound : fileOffset < fpageIdRange * pageSize)
    (ran : Returns (fun fuel => mgr.setBlock fuel buf fileOffset n fd false) mgr') :
    ∃ m mid, Returns (fun fuel => mgr.fetchPageSync fuel ⟨fd, fileOffset / pageSize⟩) (m, mid) ∧
      mgr' = (mid.setFrame ⟨fd, fileOffset / pageSize⟩ m (memcpy (mid.frame ⟨fd, fileOffset / pageSize⟩ m)
        (fileOffset % pageSize) buf 0 n)).decRefCount ⟨fd, fileOffset / pageSize⟩ m true := by
  obtain ⟨fuel, enough⟩ := ran
  have ran := enough (fuel + 2) (by omega)
  have id : fpageIdOf fileOffset = fileOffset / pageSize :=
    Nat.mod_eq_of_lt ((Nat.div_lt_iff_lt_mul (by decide)).mpr bound)
  have whole : objectSize (fileOffset % pageSize) n = n := if_neg (by omega)
  simp only [setBlock, blockLoop, if_neg (Nat.pos_iff_ne_zero.mp positive), id] at ran
  obtain ⟨⟨n', after⟩, visited, rest⟩ := bind_eq_ok.mp ran
  obtain ⟨⟨m, mid⟩, fetched, visited⟩ := bind_eq_ok.mp visited
  cases visited
  simp only [whole, Nat.sub_self, if_true] at rest
  cases rest
  exact ⟨m, mid, (fetchPageSync_stable _ mgr).returns fetched, rfl⟩

end blocks

end BufferPoolManager

end Gbp
