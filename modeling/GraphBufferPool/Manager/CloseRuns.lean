import GraphBufferPool.Manager.FlushKept
import GraphBufferPool.Manager.Watching

/-! # Programs that close files

`CloseFile` writes the pages of a file back and takes its mappings away, and the replacers know nothing of it: a
frame that had a page of the file stays in the replacer, and its entry names a file that is not registered any
more. Files of which no page is in memory are closed without a trace.
-/

namespace Gbp

open Function LawfulReplacer DiskManager Fuel Machine

namespace BufferPoolManager

open BufferPool

section model

variable {R : Type} [Replacer R]

/-- None of the pages of the file is in memory. -/
def Uncached (mgr : BufferPoolManager R) (fd : ℕ) : Prop :=
  ∀ page : Page, page.fd = fd → page.fpageId < fpageIdRange → ∀ m, mgr.mapping page ≠ some (.frame m)

/-- What a program does that closes files of which it has pinned no page; `May` says which files it may close. -/
inductive ClosingStep (May : BufferPoolManager R → ℕ → Prop) : Session R → Session R → Prop
  | openFile {s : Session R} {fd : ℕ} {mgr' : BufferPoolManager R} (file : OsFile)
      (ran : s.mgr.openFile file = .ok (fd, mgr')) :
      ClosingStep May s ⟨mgr', opened s.content fd file.1, s.pins⟩
  | closeFile {s : Session R} {fd : ℕ} {mgr' : BufferPoolManager R} (range : InRange s.mgr fd 0 0)
      (unheld : Unheld s.pins fd) (may : May s.mgr fd) (ran : s.mgr.closeFile fd = .ok mgr') :
      ClosingStep May s ⟨mgr', s.content, s.pins⟩
  | fetch {s : Session R} {page : Page} {m : ℕ} {mgr' : BufferPoolManager R} (inFile : InFile s.mgr page)
      (room : ∀ m, Room (s.pins (s.mgr.poolOf page)) m)
      (ran : Returns (fun fuel => s.mgr.fetchPageSync fuel page) (m, mgr')) :
      ClosingStep May s ⟨mgr', s.content,
        update s.pins (s.mgr.poolOf page) ((page, m) :: s.pins (s.mgr.poolOf page))⟩
  | release {s : Session R} {page : Page} {m : ℕ} (pin : (page, m) ∈ s.pins (s.mgr.poolOf page))
      (isWrite : Bool) :
      ClosingStep May s ⟨s.mgr.decRefCount page m isWrite, s.content,
        update s.pins (s.mgr.poolOf page) ((s.pins (s.mgr.poolOf page)).erase (page, m))⟩
  | write {s : Session R} {page : Page} {m : ℕ} (inFile : InFile s.mgr page)
      (pin : (page, m) ∈ s.pins (s.mgr.poolOf page)) (bytes : Bytes)
      (past : ∀ i < pageSize, s.mgr.disk.getFileSizeFast page.fd ≤ page.position i →
        bytes i = s.mgr.frame page m i) :
      ClosingStep May s ⟨(s.mgr.setFrame page m bytes).decRefCount page m true, stored s.content page bytes,
        update s.pins (s.mgr.poolOf page) ((s.pins (s.mgr.poolOf page)).erase (page, m))⟩

/-- The states of a program that closes such files only. -/
abbrev ClosingRun (May : BufferPoolManager R → ℕ → Prop) (s : Session R) : Prop :=
  Reach SessionStart (ClosingStep May) s

/-- The entry of every frame that a replacer tracks names a file that is registered in the page table. -/
def TracksRegistered [LawfulReplacer R] (mgr : BufferPoolManager R) : Prop :=
  ∀ i < mgr.partitioner.numPartitions, ∀ m ∈ frames (mgr.pools i).replacer,
    ∃ n, (mgr.pools i).pageTable.shape[((mgr.pools i).pageTable.ptes m).fdCur]? = some (some n)

variable {mgr mgr' : BufferPoolManager R} {fd : ℕ}

end model

variable {R : Type} [Replacer R] [LawfulReplacer R] {mgr mgr' : BufferPoolManager R} {content : Content}
  {pins : ℕ → List (Page × ℕ)} {place : ℕ → ℕ → Place} {page : Page} {fd m : ℕ}

/-- What holds in every state of such a program: all files are watched and their bytes known, and every frame that is in
use has a page of one. -/
structure Kept (content : Content) (mgr : BufferPoolManager R) (place : ℕ → ℕ → Place)
    (pins : ℕ → List (Page × ℕ)) : Prop extends Watches (fun _ _ => True) (fun _ => True) content mgr place pins where
  quiet : AllQuiet mgr place

/-- A frame that is tracked has a page. -/
theorem Kept.resident (kept : Kept content mgr place pins) {i : ℕ} (inside : i < mgr.partitioner.numPartitions)
    (tracked : m ∈ frames (mgr.pools i).replacer) : ∃ page, place i m = .resident page := by
  have used : (place i m).page? ≠ none := kept.strict i inside m tracked
  rcases kept.quiet i inside m with here | here | resident
  · simp [here, Place.page?] at used
  · simp [here, Place.page?] at used
  · exact resident

theorem Kept.tracksRegistered (kept : Kept content mgr place pins) : TracksRegistered mgr := by
  intro i inside m tracked
  obtain ⟨page, here⟩ := kept.resident inside tracked
  have described : ((mgr.pools i).pageTable.ptes m).page = page :=
    (kept.sound.inv i inside).described m page (by rw [here]; rfl)
  have owns := (kept.sound.inv i inside).owned m page (Or.inl here)
  obtain ⟨n, registered, _⟩ := kept.sound.slots i inside page.fd owns.valid
  have handle : ((mgr.pools i).pageTable.ptes m).fdCur = page.fd := congrArg Page.fd described
  exact ⟨n, by rw [handle, registered]⟩

/-- A file has a page in memory exactly where a frame has one. -/
theorem Sound.uncached_iff (sound : Sound (fun _ _ => True) content mgr place pins) (range : InRange mgr fd 0 0) :
    Uncached mgr fd ↔
      ∀ i < mgr.partitioner.numPartitions, ∀ m page, place i m = .resident page → page.fd ≠ fd := by
  constructor
  · rintro uncached i inside m page here rfl
    have owns := (sound.inv i inside).owned m page (Or.inl here)
    have same := sound.poolOf_eq inside here
    refine uncached page rfl owns.fpageId m ?_
    rw [mapping, same]
    exact (sound.inv i inside).word?_resident here
  · rintro away page rfl bound m mapped
    have inside := mgr.poolOf_lt page
    have owns : (mgr.pool (mgr.poolOf page)).Owns page := by
      refine ⟨?_, bound, range.handle, range.valid, ?_⟩
      · change (mgr.pools _).pageTable.partitioner.getPartitionId _ = (mgr.pools _).poolId
        rw [sound.partitioner _ inside, sound.poolId _ inside]
        rfl
      · exact fun none => Option.some_ne_none _ (mapped.symm.trans none)
    exact away _ inside m page (((sound.inv _ inside).mapped page owns m).mp mapped) rfl

/-- The start of a session. -/
theorem SessionStart.kept {s : Session R} (start : SessionStart s) : ∃ place, Kept s.content s.mgr place s.pins := by
  cases start with
  | init part poolSize memory file =>
    have opens := @opens_init R _ part poolSize memory file
    have watches := @blank_watches R _ _ part poolSize memory
    exact ⟨_, (watches.openFile opens).mono fun _ => Or.inl, fun i _ => startPlace_quiet poolSize⟩

/-- Opening a file. -/
theorem Kept.openFile (kept : Kept content mgr place pins) {file : OsFile} (opens : Opens mgr file mgr') :
    Kept (opened content mgr.disk.files.length file.1) mgr' place pins where
  toWatches := (kept.toWatches.openFile opens).mono fun _ => Or.inl
  quiet := by
    rw [AllQuiet, opens.partitioner]
    exact kept.quiet

/-- Fetching a page. -/
theorem Kept.fetch (kept : Kept content mgr place pins) (inFile : InFile mgr page)
    (room : ∀ m, Room (pins (mgr.poolOf page)) m)
    (ran : Returns (fun fuel => mgr.fetchPageSync fuel page) (m, mgr')) :
    ∃ place', Kept content mgr' place' (update pins (mgr.poolOf page) ((page, m) :: pins (mgr.poolOf page))) := by
  obtain ⟨_, _, rfl, _, _, fetched, watches⟩ := kept.toWatches.fetch inFile room ran
  refine ⟨_, watches, fun i inside => ?_⟩
  by_cases same : i = mgr.poolOf page
  · rw [same, update_self]
    exact fetched.quiet (kept.quiet _ (mgr.poolOf_lt page))
  · rw [update_of_ne same]
    exact kept.quiet i inside

/-- Closing a file of which no page is in memory. -/
theorem Kept.closeFile (kept : Kept content mgr place pins) (range : InRange mgr fd 0 0) (unheld : Unheld pins fd)
    (uncached : Uncached mgr fd) (ran : mgr.closeFile fd = .ok mgr') : Kept content mgr' place pins := by
  obtain ⟨_, returned, closes, watches⟩ := kept.toWatches.closeFile range unheld
  cases returned.symm.trans ran
  have away := (kept.sound.uncached_iff range).mp uncached
  have quiet : AllQuiet mgr' place := by
    rw [AllQuiet, closes.partitioner]
    exact kept.quiet
  have same (i : ℕ) (inside : i < mgr'.partitioner.numPartitions) : place i = fun m => (place i m).closed fd := by
    funext m
    rcases quiet i inside m with here | here | ⟨page, here⟩
    · simp [here, Place.closed]
    · simp [here, Place.closed]
    · simp [here, Place.closed, away i (closes.partitioner ▸ inside) m page here]
  have sound := watches.sound.congr_place same
  -- the bytes of the closed file are on the disk, and behind its end there are zeros
  have saved (i : ℕ) : mgr'.disk.byte fd i = content fd i := by
    rcases Nat.lt_or_ge i (mgr.disk.getFileSizeFast fd) with inside | past
    · exact closes.byte i inside trivial
    · have zero := (kept.sound.coherent _ (mgr.poolOf_lt ⟨fd, 0⟩)).tail fd i trivial past
      rw [zero, DiskManager.byte]
      refine (mgr'.disk.file fd).byte_past i ((watches.exact fd trivial).trans_le ?_)
      rwa [closes.size]
  refine ⟨⟨⟨{ sound.toPools with coherent := fun i inside => ?_ }, sound.settled⟩, fun i inside => ?_,
    fun i inside m page => (quiet i inside).not_locks m page, fun _ _ _ => trivial, watches.exact, ?_⟩, quiet⟩
  · have inside' : i < mgr.partitioner.numPartitions := closes.partitioner ▸ inside
    have before := sound.coherent i inside
    have other {page : Page} (apart : page.fd ≠ fd)
        (synced : (mgr'.pool i).disk.Synced (fun other _ => other ≠ fd ∧ True) content page) :
        (mgr'.pool i).disk.Synced (fun _ _ => True) content page :=
      fun k small _ => synced k small ⟨apart, trivial⟩
    refine ⟨fun other k _ past => ?_, fun m page here k small _ => ?_, fun m page here clean => ?_,
      fun page partition gone => ?_⟩
    · refine (kept.sound.coherent i inside').tail other k trivial ?_
      change mgr'.disk.getFileSizeFast other ≤ k at past
      rwa [closes.size] at past
    · exact before.frame m page here k small ⟨away i inside' m page here, trivial⟩
    · exact other (away i inside' m page here) (before.clean m page here clean)
    · by_cases same : page.fd = fd
      · exact fun k _ _ => by rw [same]; exact saved _
      · exact other same (before.away page partition gone)
  · rw [same i inside]
    exact watches.strict i inside
  · intro i inside m page here
    rw [same i inside] at here
    exact watches.home i inside m page here

theorem ClosingStep.kept {s s' : Session R} (kept : ∃ place, Kept s.content s.mgr place s.pins)
    (step : ClosingStep Uncached s s') : ∃ place, Kept s'.content s'.mgr place s'.pins := by
  obtain ⟨place, kept⟩ := kept
  cases step with
  | openFile file ran =>
    obtain ⟨_, returned, opens⟩ := exists_openFile _ file
    cases returned.symm.trans ran
    exact ⟨place, kept.openFile opens⟩
  | closeFile range unheld uncached ran => exact ⟨place, kept.closeFile range unheld uncached ran⟩
  | fetch inFile room ran => exact kept.fetch inFile room ran
  | release pin isWrite => exact ⟨place, kept.toWatches.release pin isWrite, kept.quiet⟩
  | write inFile pin bytes past => exact ⟨place, kept.toWatches.write inFile pin past, kept.quiet⟩

theorem ClosingRun.kept {s : Session R} (run : ClosingRun Uncached s) : ∃ place, Kept s.content s.mgr place s.pins :=
  run.invariant (fun _ start => start.kept) fun _ _ before step => step.kept before

/-- After a close, the frames that had pages of the file are tracked and name it. -/
theorem Kept.closes_iff (kept : Kept content mgr place pins) (range : InRange mgr fd 0 0) (unheld : Unheld pins fd) :
    ∃ mgr', mgr.closeFile fd = .ok mgr' ∧
      (∀ i < mgr.disk.getFileSizeFast fd, mgr'.disk.byte fd i = content fd i) ∧
      (TracksRegistered mgr' ↔ Uncached mgr fd) := by
  obtain ⟨mgr', ran, closes⟩ := kept.sound.closeFile range unheld fun i inside m page _ =>
    (kept.quiet i inside).not_locks m page
  refine ⟨mgr', ran, fun i inside => closes.byte i inside trivial, fun registered =>
    (kept.sound.uncached_iff range).mpr ?_, fun uncached =>
    (kept.closeFile range unheld uncached ran).tracksRegistered⟩
  rintro i inside m page here rfl
  have inside' : i < mgr'.partitioner.numPartitions := closes.partitioner ▸ inside
  have orphan : (place i m).closed page.fd = .orphan page := by simp [here, Place.closed]
  have inv := closes.sound.inv i inside'
  have described : ((mgr'.pools i).pageTable.ptes m).page = page := inv.described m page (by rw [orphan]; rfl)
  obtain ⟨n, there⟩ := registered i inside' m (inv.tracked m page (by rw [orphan]; rfl))
  rw [show ((mgr'.pools i).pageTable.ptes m).fdCur = page.fd from congrArg Page.fd described] at there
  cases (inv.gone m page orphan).symm.trans there

/-- In every run that closes files only while no page of them is in memory, the replacers track frames of registered
files. `CloseFile` saves every file it closes, and keeps that property only for those files. -/
theorem close_file_consistent_iff {s : Session R} (run : ClosingRun Uncached s) :
    TracksRegistered s.mgr ∧ ∀ fd, InRange s.mgr fd 0 0 → Unheld s.pins fd → ∃ mgr',
      s.mgr.closeFile fd = .ok mgr' ∧
      (∀ i < s.mgr.disk.getFileSizeFast fd, mgr'.disk.byte fd i = s.content fd i) ∧
      (TracksRegistered mgr' ↔ Uncached s.mgr fd) := by
  obtain ⟨place, kept⟩ := run.kept
  exact ⟨kept.tracksRegistered, fun fd range unheld => kept.closes_iff range unheld⟩

/-- A page of the file that is in memory and that no one holds. -/
theorem exists_cached : ∃ s : Session SieveReplacer_v3, (∀ May, ClosingRun May s) ∧ InRange s.mgr 0 0 0 ∧
    Unheld s.pins 0 ∧ ¬ Uncached s.mgr 0 := by
  obtain ⟨mgr, fetched, shape, pin, mapped, _⟩ := exists_fetched
  have run (May : BufferPoolManager SieveReplacer_v3 → ℕ → Prop) : ClosingRun May _ :=
    (Reach.init (.init _ _ _ _) : ClosingRun May twoZeroPages).step
      (.fetch ⟨by decide, rfl, by decide, by decide⟩ (by simp [Room, twoZeroPages]) fetched)
  refine ⟨_, fun May => (run May).step (.release pin false), shape.inRange ⟨by decide, rfl, by decide, by decide⟩, ?_,
    fun uncached => uncached ⟨0, 0⟩ rfl (by decide) 0 mapped⟩
  intro i other member
  have same : mgr.poolOf ⟨0, 0⟩ = twoZeroPages.mgr.poolOf ⟨0, 0⟩ := shape.poolOf ⟨0, 0⟩
  dsimp only at member
  rw [same, update_self, List.erase_cons_head, update_idem] at member
  by_cases here : i = twoZeroPages.mgr.poolOf ⟨0, 0⟩
  · rw [here, update_self] at member
    cases member
  · rw [update_of_ne here] at member
    cases member

/-- A page of the file is in memory: the file can be closed, and the replacer goes on tracking the page's frame. -/
theorem close_file_consistent_cachedPage : ∃ s : Session SieveReplacer_v3, ¬ Uncached s.mgr 0 ∧ TracksRegistered s.mgr ∧
    ∃ mgr', s.mgr.closeFile 0 = .ok mgr' ∧ ¬ TracksRegistered mgr' := by
  obtain ⟨s, run, range, unheld, cached⟩ := exists_cached
  obtain ⟨tracks, closes⟩ := close_file_consistent_iff (run Uncached)
  obtain ⟨mgr', ran, _, registered⟩ := closes 0 range unheld
  exact ⟨s, cached, tracks, mgr', ran, fun kept => cached (registered.mp kept)⟩

/-- A page of the file is in memory when the file is closed: its frame is still tracked. -/
theorem closed_file_tracked :
    ¬ ∀ s : Session SieveReplacer_v3, ClosingRun (fun _ _ => True) s → TracksRegistered s.mgr := by
  intro claimed
  obtain ⟨s, run, range, unheld, cached⟩ := exists_cached
  obtain ⟨place, kept⟩ := (run Uncached).kept
  obtain ⟨mgr', ran, _, registered⟩ := kept.closes_iff range unheld
  exact cached (registered.mp (claimed _ ((run _).step (.closeFile range unheld trivial ran))))

end BufferPoolManager

end Gbp
