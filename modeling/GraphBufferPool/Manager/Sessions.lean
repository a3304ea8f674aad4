import GraphBufferPool.Manager.FlatFile

/-! # Programs that hold pages

Runs of the manager by a program that pins pages, reads and writes them while it holds them, and lets go
of them in any order, next to the bytes that plain arrays would hold. `GetBlock` and `SetBlock` are
such runs themselves: of each page they pin it, copy, and release it.
-/

namespace Gbp.BufferPoolManager

open Function LawfulReplacer BufferPool DiskManager Fuel Machine

/-- The manager, the bytes of the files, and the pins of the program in each pool. -/
structure Session (R : Type) where
  mgr : BufferPoolManager R
  content : Content
  pins : ℕ → List (Page × ℕ)

/-- The bytes of the files after a store to a whole page. -/
def stored (content : Content) (page : Page) (bytes : Bytes) : Content :=
  fun fd i => if page.Contains fd i then bytes (i % pageSize) else content fd i

variable {R : Type} [Replacer R]

/-- What a program does: of a page it has pinned it may store the bytes in the file. It shrinks a file only
where no cached page holds a byte behind the new end. -/
inductive SessionStep : Session R → Session R → Prop
  | openFile {s : Session R} {fd : ℕ} {mgr' : BufferPoolManager R} (file : OsFile)
      (ran : s.mgr.openFile file = .ok (fd, mgr')) :
      SessionStep s ⟨mgr', opened s.content fd file.1, s.pins⟩
  | resize {s : Session R} {fd newSize : ℕ} {mgr' : BufferPoolManager R} (bound : newSize < 2 ^ 64)
      (valid : s.mgr.disk.validFD fd = true)
      (clean : newSize < s.mgr.disk.getFileSizeFast fd → NoStale s.mgr fd newSize)
      (ran : s.mgr.resize fd newSize bound = .ok mgr') :
      SessionStep s ⟨mgr', truncated s.content fd newSize, s.pins⟩
  | fetch {s : Session R} {page : Page} {m : ℕ} {mgr' : BufferPoolManager R} (inFile : InFile s.mgr page)
      (room : ∀ m, Room (s.pins (s.mgr.poolOf page)) m)
      (ran : Returns (fun fuel => s.mgr.fetchPageSync fuel page) (m, mgr')) :
      SessionStep s ⟨mgr', s.content,
        update s.pins (s.mgr.poolOf page) ((page, m) :: s.pins (s.mgr.poolOf page))⟩
  | release {s : Session R} {page : Page} {m : ℕ} (pin : (page, m) ∈ s.pins (s.mgr.poolOf page))
      (isWrite : Bool) :
      SessionStep s ⟨s.mgr.decRefCount page m isWrite, s.content,
        update s.pins (s.mgr.poolOf page) ((s.pins (s.mgr.poolOf page)).erase (page, m))⟩
  | write {s : Session R} {page : Page} {m : ℕ} (inFile : InFile s.mgr page)
      (pin : (page, m) ∈ s.pins (s.mgr.poolOf page)) (bytes : Bytes)
      (past : ∀ i < pageSize, s.mgr.disk.getFileSizeFast page.fd ≤ page.position i →
        bytes i = s.mgr.frame page m i) :
      SessionStep s ⟨(s.mgr.setFrame page m bytes).decRefCount page m true, stored s.content page bytes,
        update s.pins (s.mgr.poolOf page) ((s.pins (s.mgr.poolOf page)).erase (page, m))⟩

/-- A manager with its first file open. -/
inductive SessionStart : Session R → Prop
  | init (part : Partitioner) (poolSize : ℕ) (memory : ℕ → ℕ → Bytes) (file : OsFile) :
      SessionStart ⟨.init part poolSize memory file, opened (fun _ _ => 0) 0 file.1, fun _ => []⟩

/-- The states in which such a program calls the manager. -/
abbrev SessionRun (s : Session R) : Prop := Reach SessionStart SessionStep s

variable [LawfulReplacer R]

/-- The manager is between calls and holds the bytes of the files. -/
def Session.Holds (s : Session R) : Prop :=
  ∃ place, Sound (fun _ _ => True) s.content s.mgr place s.pins ∧ AllQuiet s.mgr place

variable {K : ℕ → ℕ → Prop} {mgr mgr' : BufferPoolManager R} {content : Content} {pins : ℕ → List (Page × ℕ)}
  {place : ℕ → ℕ → Place} {page : Page} {m : ℕ}

/-- A pinned page of an open file is resident. -/
theorem Sound.resident_of_pin (sound : Sound K content mgr place pins)
    (inFile : InFile mgr page) (pin : (page, m) ∈ pins (mgr.poolOf page)) :
    place (mgr.poolOf page) m = .resident page := by
  have inside := mgr.poolOf_lt page
  rcases (sound.inv _ inside).pinned page m pin with here | orphan
  · exact here
  · obtain ⟨n, there, _⟩ := sound.slots _ inside page.fd inFile.valid
    cases ((sound.inv _ inside).gone m page orphan).symm.trans there

omit [Replacer R] [LawfulReplacer R] in
theorem stored_position {bytes : Bytes} {i : ℕ} (small : i < pageSize) :
    stored content page bytes page.fd (page.position i) = bytes i := by
  rw [stored, if_pos ⟨rfl, Page.position_div small⟩, Page.position, Nat.mul_add_mod_self_right, Nat.mod_eq_of_lt small]

/-- The bytes of a file after a store to one of its pages are zeros behind the end. -/
theorem Sound.tail_stored (sound : Sound K content mgr place pins)
    (here : place (mgr.poolOf page) m = .resident page) {bytes : Bytes}
    (past : ∀ i < pageSize, mgr.disk.getFileSizeFast page.fd ≤ page.position i → bytes i = mgr.frame page m i) :
    mgr.disk.Tail K (stored content page bytes) := by
  have tail := (sound.coherent _ (mgr.poolOf_lt page)).tail
  intro fd i known behind
  by_cases inside : page.Contains fd i
  · obtain ⟨rfl, id⟩ := inside
    have small : i % pageSize < pageSize := Nat.mod_lt _ (by decide)
    have position : page.position (i % pageSize) = i := by rw [Page.position, ← id, Nat.div_add_mod']
    rw [← position] at behind known
    have zero := tail page.fd _ known behind
    rw [stored, if_pos ⟨rfl, id⟩, past _ small behind, sound.frame_byte here small known, zero]
  · rw [stored, if_neg inside]
    exact tail fd i known behind

theorem SessionStart.holds {s : Session R} (start : SessionStart s) : s.Holds := by
  cases start with
  | init part poolSize memory file =>
    exact ⟨_, (opens_init part poolSize memory file).sound (blank_sound part poolSize memory),
      fun i _ => startPlace_quiet poolSize⟩

/-- A step keeps the invariant, and locks no page. -/
theorem SessionStep.sound {s s' : Session R} (step : SessionStep s s')
    (sound : Sound (fun _ _ => True) s.content s.mgr place s.pins) : ∃ place',
      Sound (fun _ _ => True) s'.content s'.mgr place' s'.pins ∧ (AllQuiet s.mgr place → AllQuiet s'.mgr place') := by
  cases step with
  | openFile file ran =>
    obtain ⟨_, returned, opens⟩ := exists_openFile _ file
    cases returned.symm.trans ran
    refine ⟨place, opens.sound sound, fun quiet => ?_⟩
    rw [AllQuiet, opens.partitioner]
    exact quiet
  | resize bound valid clean ran =>
    obtain ⟨_, _, resizes⟩ := resize_returned ran
    refine ⟨place, resizes.sound valid sound (sound.clear clean), fun quiet => ?_⟩
    rw [AllQuiet, resizes.partitioner]
    exact quiet
  | fetch inFile room ran =>
    obtain ⟨place', _, quiet', _, _, sound'⟩ := sound.fetched inFile room ran
    exact ⟨place', sound', quiet'⟩
  | release pin isWrite => exact ⟨place, sound.decRefCount pin isWrite, id⟩
  | write inFile pin bytes past =>
    have here := sound.resident_of_pin inFile pin
    refine ⟨place, sound.write pin here (fun fd i apart => ⟨id, if_neg apart⟩) (fun i small _ => ?_)
      (sound.tail_stored here past), id⟩
    exact (stored_position small).symm

theorem SessionStep.holds {s s' : Session R} (before : s.Holds) (step : SessionStep s s') : s'.Holds := by
  obtain ⟨place, sound, quiet⟩ := before
  obtain ⟨place', sound', quiet'⟩ := step.sound sound
  exact ⟨place', sound', quiet' quiet⟩

/-- The pools hold the bytes of the files after every step of a program. -/
theorem SessionRun.holds {s : Session R} (run : SessionRun s) : s.Holds :=
  run.invariant (fun _ start => start.holds) fun _ _ before step => step.holds before

section blocks

variable {fd fileOffset blockSize : ℕ} {buf : Bytes}

/-- A visit of a page: it is pinned, and may be read until the pin is released. -/
theorem SessionRun.visit (run : SessionRun ⟨mgr, content, pins⟩) (spare : Spare mgr pins)
    (inFile : InFile mgr page) : ∃ m mgr', Returns (fun fuel => mgr.fetchPageSync fuel page) (m, mgr') ∧
      SameShape mgr mgr' ∧ SessionRun ⟨mgr', content,
        update pins (mgr'.poolOf page) ((page, m) :: pins (mgr'.poolOf page))⟩ := by
  obtain ⟨place, sound, quiet⟩ := run.holds
  obtain ⟨m, mgr', _, ran, _, _, shape, _⟩ := sound.fetch quiet spare inFile
  refine ⟨m, mgr', ran, shape, ?_⟩
  rw [shape.poolOf]
  exact run.step (.fetch inFile (spare _ (mgr.poolOf_lt page)).2 ran)

omit [LawfulReplacer R] in
/-- The end of a visit that reads. -/
theorem SessionRun.endRead
    (run : SessionRun ⟨mgr, content, update pins (mgr.poolOf page) ((page, m) :: pins (mgr.poolOf page))⟩) :
    SessionRun ⟨mgr.decRefCount page m false, content, pins⟩ := by
  have pin : (page, m) ∈ update pins (mgr.poolOf page) ((page, m) :: pins (mgr.poolOf page)) (mgr.poolOf page) := by
    rw [update_self]
    exact List.mem_cons_self
  have released := run.step (.release pin false)
  dsimp only at released
  rwa [update_self, update_idem, List.erase_cons_head, update_eq_self] at released

omit [LawfulReplacer R] in
/-- The end of a visit that stores. -/
theorem SessionRun.endWrite
    (run : SessionRun ⟨mgr, content, update pins (mgr.poolOf page) ((page, m) :: pins (mgr.poolOf page))⟩)
    (inFile : InFile mgr page) (bytes : Bytes)
    (past : ∀ i < pageSize, mgr.disk.getFileSizeFast page.fd ≤ page.position i → bytes i = mgr.frame page m i) :
    SessionRun ⟨(mgr.setFrame page m bytes).decRefCount page m true, stored content page bytes, pins⟩ := by
  have pin : (page, m) ∈ update pins (mgr.poolOf page) ((page, m) :: pins (mgr.poolOf page)) (mgr.poolOf page) := by
    rw [update_self]
    exact List.mem_cons_self
  have released := run.step (.write inFile pin bytes past)
  dsimp only at released
  rwa [update_self, update_idem, List.erase_cons_head, update_eq_self] at released

/-- `GetBlock` is a run of steps. -/
theorem SessionRun.getBlock (run : SessionRun ⟨mgr, content, pins⟩) (spare : Spare mgr pins)
    (range : InRange mgr fd fileOffset blockSize) {buf' : Bytes}
    (ran : Returns (fun fuel => mgr.getBlock fuel buf fileOffset blockSize fd) (buf', mgr')) :
    SessionRun ⟨mgr', content, pins⟩ := by
  have visit (done : ℕ) (left : done < blockSize) (s : Bytes × BufferPoolManager R)
      (before : SessionRun ⟨s.2, content, pins⟩ ∧ SameShape mgr s.2) :
      ∃ s', Returns (fun fuel => getBlockBody fd fuel ((fileOffset + done) / pageSize)
          ((fileOffset + done) % pageSize) (blockSize - done) done s)
          (objectSize ((fileOffset + done) % pageSize) (blockSize - done), s') ∧
        SessionRun ⟨s'.2, content, pins⟩ ∧ SameShape mgr s'.2 := by
    obtain ⟨bytes, mgr₁⟩ := s
    obtain ⟨run₁, shape⟩ := before
    obtain ⟨m, mgr₂, fetched, shape', run₂⟩ := run₁.visit (shape.spare spare) (shape.inFile (range.page left))
    exact ⟨_, fetched.bind .const, run₂.endRead, (shape.trans shape').trans ⟨rfl, rfl, .refl _⟩⟩
  have start : SessionRun ⟨(buf, mgr).2, content, pins⟩ ∧ SameShape mgr (buf, mgr).2 := ⟨run, .refl _⟩
  obtain ⟨⟨_, _⟩, returned, after, _⟩ := blockLoop_returns (fun _ (s : Bytes × BufferPoolManager R) =>
    SessionRun ⟨s.2, content, pins⟩ ∧ SameShape mgr s.2) range.bound visit start
  cases returned.unique ran
  exact after

/-- What a visit stores to a page that holds the bytes of its file. -/
theorem Sound.stored_splice {start n : ℕ} {m done : ℕ}
    (sound : Sound (fun _ _ => True) content mgr place pins)
    (here : place (mgr.poolOf ⟨fd, start / pageSize⟩) m = .resident ⟨fd, start / pageSize⟩)
    (ends : start % pageSize + n ≤ pageSize) :
    stored content ⟨fd, start / pageSize⟩
        (memcpy (mgr.frame ⟨fd, start / pageSize⟩ m) (start % pageSize) buf done n) =
      splice content fd start (fun i => buf (done + i)) n := by
  have split := Nat.div_add_mod' start pageSize
  funext fd' i
  have apart := Nat.div_add_mod' i pageSize
  have small : i % pageSize < pageSize := Nat.mod_lt _ (by decide)
  by_cases inside : Page.Contains ⟨fd, start / pageSize⟩ fd' i
  · obtain ⟨rfl, id⟩ := inside
    dsimp only at id
    rw [id] at apart
    rw [stored, if_pos ⟨rfl, id⟩, memcpy, splice]
    by_cases copied : start % pageSize ≤ i % pageSize ∧ i % pageSize < start % pageSize + n
    · rw [if_pos copied, if_pos ⟨rfl, by omega, by omega⟩]
      congr 2
      omega
    · have position : (⟨fd', start / pageSize⟩ : Page).position (i % pageSize) = i := apart
      rw [if_neg copied, if_neg fun both => copied ⟨by omega, by omega⟩, sound.frame_byte here small trivial,
        position]
  · rw [stored, if_neg inside, splice, if_neg]
    rintro ⟨rfl, low, high⟩
    have position := position_piece fd' start (i - start)
    rw [Nat.add_sub_of_le low] at position
    rw [← position] at inside
    exact inside ⟨rfl, Page.position_div (by omega)⟩

/-- `SetBlock` is a run of steps. -/
theorem SessionRun.setBlock (run : SessionRun ⟨mgr, content, pins⟩) (spare : Spare mgr pins)
    (range : InRange mgr fd fileOffset blockSize)
    (ran : Returns (fun fuel => mgr.setBlock fuel buf fileOffset blockSize fd false) mgr') :
    SessionRun ⟨mgr', splice content fd fileOffset buf blockSize, pins⟩ := by
  have visit (done : ℕ) (left : done < blockSize) (mgr₁ : BufferPoolManager R)
      (before : SessionRun ⟨mgr₁, splice content fd fileOffset buf done, pins⟩ ∧ SameShape mgr mgr₁) :
      ∃ mgr₃, Returns (fun fuel => setBlockBody buf fd false fuel ((fileOffset + done) / pageSize)
          ((fileOffset + done) % pageSize) (blockSize - done) done mgr₁)
          (objectSize ((fileOffset + done) % pageSize) (blockSize - done), mgr₃) ∧
        SessionRun ⟨mgr₃, splice content fd fileOffset buf
          (done + objectSize ((fileOffset + done) % pageSize) (blockSize - done)), pins⟩ ∧ SameShape mgr mgr₃ := by
    obtain ⟨run₁, shape⟩ := before
    have inFile := shape.inFile (range.page left)
    obtain ⟨m, mgr₂, fetched, shape', run₂⟩ := run₁.visit (shape.spare spare) inFile
    have offset : (fileOffset + done) % pageSize < pageSize := Nat.mod_lt _ (by decide)
    have ends := @objectSize_add_le _ (blockSize - done) offset
    have within : objectSize ((fileOffset + done) % pageSize) (blockSize - done) ≤ blockSize - done :=
      objectSize_le ..
    set page : Page := ⟨fd, (fileOffset + done) / pageSize⟩ with page_eq
    set n := objectSize ((fileOffset + done) % pageSize) (blockSize - done)
    refine ⟨_, fetched.bind .const, ?_, (shape.trans shape').trans ⟨rfl, rfl, .refl _⟩⟩
    obtain ⟨place, sound, _⟩ := run₂.holds
    have pin : (page, m) ∈ update pins (mgr₂.poolOf page) ((page, m) :: pins (mgr₂.poolOf page))
        (mgr₂.poolOf page) := by
      rw [update_self]
      exact List.mem_cons_self
    have stores := @Sound.stored_splice _ _ _ _ _ _ _ fd buf _ n m done sound
      (sound.resident_of_pin (shape'.inFile inFile) pin) ends
    have after := run₂.endWrite (shape'.inFile inFile)
      (memcpy (mgr₂.frame page m) ((fileOffset + done) % pageSize) buf done n)
      fun i small behind => ?_
    · rwa [stores, splice_append] at after
    · refine if_neg fun copied => ?_
      have position := position_piece fd (fileOffset + done) (i - (fileOffset + done) % pageSize)
      rw [Nat.add_sub_of_le copied.1] at position
      have same : mgr₂.disk.getFileSizeFast fd = mgr.disk.getFileSizeFast fd := (shape.trans shape').handles.size fd
      have inside := range.inside
      change mgr₂.disk.getFileSizeFast fd ≤ page.position i at behind
      rw [position, same] at behind
      omega
  obtain ⟨_, returned, after, _⟩ := blockLoop_returns (fun done mgr' =>
    SessionRun ⟨mgr', splice content fd fileOffset buf done, pins⟩ ∧ SameShape mgr mgr') range.bound visit
    ⟨by rwa [splice_zero], .refl _⟩
  cases returned.unique ran
  exact after

end blocks

end Gbp.BufferPoolManager
