import GraphBufferPool.Manager.CloseFile
import GraphBufferPool.Manager.Sessions
import GraphBufferPool.Pool.Serves

/-! # Files that are watched

Calls of the manager by a program that pins pages and lets go of them in any order, and opens, resizes and closes files.
The bytes of the open files are known all the time; some files are watched: they keep their size, and no page from
behind their end is cached, so that they are as long on disk.
-/

namespace Gbp

open Function LawfulReplacer DiskManager Fuel Machine

theorem DiskManager.ExactAt.withSize {disk : DiskManager} {fd other : ℕ} (exact : disk.ExactAt other)
    (valid : disk.validFD fd = true) (newSize : ℕ) (bound : newSize < 2 ^ 64) :
    (disk.withSize fd newSize bound).ExactAt other := by
  rw [ExactAt, withSize_file newSize bound valid, withSize_size newSize bound valid]
  split_ifs
  · rfl
  · exact exact

namespace BufferPoolManager

open BufferPool

variable {R : Type} [Replacer R] [LawfulReplacer R]

/-- What such a program finds between its calls; `K` says which bytes are known and `F` which files are watched. -/
structure Watches (K : ℕ → ℕ → Prop) (F : ℕ → Prop) (content : Content) (mgr : BufferPoolManager R)
    (place : ℕ → ℕ → Place) (pins : ℕ → List (Page × ℕ)) : Prop where
  sound : Sound K content mgr place pins
  strict : ∀ i < mgr.partitioner.numPartitions, Strict (mgr.pool i) (place i)
  unlocked : ∀ i < mgr.partitioner.numPartitions, ∀ m page, ¬ (place i m).Locks page
  known : ∀ fd, mgr.disk.files.length ≤ fd ∨ mgr.disk.validFD fd = true → ∀ i, K fd i
  exact : ∀ fd, F fd → mgr.disk.ExactAt fd
  home : ∀ i < mgr.partitioner.numPartitions, ∀ m page, place i m = .resident page → F page.fd →
    page.fpageId * pageSize < mgr.disk.getFileSizeFast page.fd

variable {K : ℕ → ℕ → Prop} {F F' : ℕ → Prop} {content : Content} {mgr mgr' : BufferPoolManager R}
  {place : ℕ → ℕ → Place} {pins : ℕ → List (Page × ℕ)} {page : Page} {fd i m : ℕ}

/-- A frame that holds a page is one of the pool. -/
theorem Sound.frame_lt (sound : Sound K content mgr place pins) (here : place (mgr.poolOf page) m = .resident page) :
    m < mgr.poolSize := by
  have inside := mgr.poolOf_lt page
  refine Nat.lt_of_not_le fun past => ?_
  have gone := ((sound.inv _ inside).absent m).mpr ((sound.poolSize _ inside).trans_le past)
  cases gone.symm.trans here

/-- Fewer files are watched. -/
theorem Watches.mono (watches : Watches K F content mgr place pins) (fewer : ∀ fd, F' fd → F fd) :
    Watches K F' content mgr place pins :=
  { watches with
    exact := fun fd watched => watches.exact fd (fewer fd watched)
    home := fun i inside m page here watched => watches.home i inside m page here (fewer _ watched) }

/-- Before the first file is opened. -/
theorem blank_watches (part : Partitioner) (poolSize : ℕ) (memory : ℕ → ℕ → Bytes) :
    Watches (fun _ _ => True) (fun _ => True) (fun _ _ => 0) (blank part poolSize memory : BufferPoolManager R)
      (fun _ => startPlace poolSize) (fun _ => []) where
  sound := blank_sound part poolSize memory
  strict := by
    intro i _ m tracked
    change m ∈ frames (Replacer.new poolSize : R) at tracked
    rw [frames_new] at tracked
    cases tracked
  unlocked := fun _ _ => (startPlace_quiet poolSize).not_locks
  known := fun _ _ _ => trivial
  exact := fun _ _ => rfl
  home := by
    intro _ _ m page here
    unfold startPlace at here
    split_ifs at here

/-- Where the replacers stay as they are, so do the frames that they track. -/
theorem Watches.same_strict (watches : Watches K F content mgr place pins) (mgr' : BufferPoolManager R)
    (same : ∀ i < mgr.partitioner.numPartitions, (mgr'.pools i).replacer = (mgr.pools i).replacer) :
    ∀ i < mgr.partitioner.numPartitions, Strict (mgr'.pool i) (place i) := by
  intro i inside m tracked
  change m ∈ frames (mgr'.pools i).replacer at tracked
  rw [same i inside] at tracked
  exact watches.strict i inside m tracked

omit [Replacer R] [LawfulReplacer R] in
theorem Opens.replacers {file : OsFile} (opens : Opens mgr file mgr') :
    ∀ i < mgr.partitioner.numPartitions, (mgr'.pools i).replacer = (mgr.pools i).replacer := by
  intro i inside
  rw [opens.pools i inside]
  rfl

omit [Replacer R] [LawfulReplacer R] in
theorem resize_replacers {newSize : ℕ} {bound : newSize < 2 ^ 64} (ran : mgr.resize fd newSize bound = .ok mgr') :
    ∀ i < mgr.partitioner.numPartitions, (mgr'.pools i).replacer = (mgr.pools i).replacer := by
  intro i inside
  obtain ⟨_, _, resizes⟩ := resize_returned ran
  obtain ⟨_, _, _, _, _, same⟩ := resizes.pools i inside
  rw [same]
  rfl

/-- The new file is watched from the start. -/
theorem Watches.openFile (watches : Watches K F content mgr place pins) {file : OsFile} (opens : Opens mgr file mgr') :
    Watches K (fun fd => F fd ∨ fd = mgr.disk.files.length) (opened content mgr.disk.files.length file.1) mgr'
      place pins := by
  have strict := watches.same_strict mgr' opens.replacers
  rw [← opens.partitioner] at strict
  refine ⟨opens.sound watches.sound, strict, opens.partitioner ▸ watches.unlocked, ?_, ?_, ?_⟩
  · rw [opens.disk, openFile_length]
    intro fd later i
    rw [openFile_validFD] at later
    refine watches.known fd ?_ i
    split_ifs at later with new
    · exact Or.inl new.ge
    · exact later.imp_left (Nat.le_of_succ_le ·)
  · intro fd watched
    rw [opens.disk, ExactAt, openFile_file, openFile_size]
    split_ifs with new
    · rfl
    · exact watches.exact fd (watched.resolve_right new)
  · rw [opens.partitioner]
    intro i inside m page here watched
    have old : page.fd ≠ mgr.disk.files.length :=
      (lt_of_validFD ((watches.sound.inv i inside).owned m page (Or.inl here)).valid).ne
    rw [opens.disk, openFile_size, if_neg old]
    exact watches.home i inside m page here (watched.resolve_right old)

/-- A resize that cuts no cached byte off. -/
theorem Watches.resize (watches : Watches K F content mgr place pins) {newSize : ℕ} {bound : newSize < 2 ^ 64}
    (clean : newSize < mgr.disk.getFileSizeFast fd → NoStale mgr fd newSize)
    (ran : mgr.resize fd newSize bound = .ok mgr')
    (keeps : ∀ fd, F fd → mgr'.disk.getFileSizeFast fd = mgr.disk.getFileSizeFast fd) :
    Watches K F (truncated content fd newSize) mgr' place pins := by
  obtain ⟨valid, _, resizes⟩ := resize_returned ran
  have strict := watches.same_strict mgr' (resize_replacers ran)
  rw [← resizes.partitioner] at strict
  refine ⟨resizes.sound valid watches.sound (watches.sound.clear clean), strict,
    resizes.partitioner ▸ watches.unlocked, ?_, ?_, ?_⟩
  · rw [resizes.disk, withSize_length]
    simp only [withSize_validFD]
    exact watches.known
  · intro other watched
    rw [resizes.disk]
    exact (watches.exact other watched).withSize valid newSize bound
  · rw [resizes.partitioner]
    intro i inside m page here watched
    rw [keeps _ watched]
    exact watches.home i inside m page here watched

/-- A file that is closed is watched no more. -/
theorem Watches.closeFile (watches : Watches K F content mgr place pins) (range : InRange mgr fd 0 0)
    (unheld : Unheld pins fd) : ∃ mgr', mgr.closeFile fd = .ok mgr' ∧ Closes K content mgr place pins fd mgr' ∧
      Watches (fun other i => other ≠ fd ∧ K other i) F content mgr' (fun i m => (place i m).closed fd) pins := by
  obtain ⟨mgr', ran, closes⟩ := watches.sound.closeFile range unheld fun i inside m page _ =>
    watches.unlocked i inside m page
  refine ⟨mgr', ran, closes, closes.sound, ?_, ?_, ?_, ?_, ?_⟩
  · rw [closes.partitioner]
    intro i inside m tracked
    change m ∈ frames (mgr'.pools i).replacer at tracked
    rw [closeFile_replacers ran i inside] at tracked
    have used : (place i m).page? ≠ none := watches.strict i inside m tracked
    rwa [Place.closed_page?]
  · rw [closes.partitioner]
    intro i inside m page
    have free := watches.unlocked i inside m page
    simp only [Place.Locks, Place.closed_eq_stuck, Place.closed_eq_loading] at free ⊢
    tauto
  · intro other open' i
    rw [closes.length, closes.valid] at open'
    split_ifs at open' with same
    · have past := open'.resolve_right not_false
      exact absurd (same ▸ lt_of_validFD range.valid) (Nat.not_lt.mpr past)
    · exact ⟨same, watches.known other open' i⟩
  · exact fun other watched => closes.exact other (watches.exact other watched)
  · rw [closes.partitioner]
    intro i inside m page here watched
    rw [closes.size]
    exact watches.home i inside m page (Place.closed_eq_resident.mp here).1 watched

/-- A fetch. -/
theorem Watches.fetch (watches : Watches K F content mgr place pins) (inFile : InFile mgr page)
    (room : ∀ m, Room (pins (mgr.poolOf page)) m)
    (ran : Returns (fun fuel => mgr.fetchPageSync fuel page) (m, mgr')) : ∃ pool' place',
      mgr' = mgr.setPool (mgr.poolOf page) pool' ∧ SameShape mgr mgr' ∧
      Serves (mgr.pool (mgr.poolOf page)) (place (mgr.poolOf page)) page m pool' ∧
      Fetched (mgr.pool (mgr.poolOf page)) (place (mgr.poolOf page)) page m pool' place' ∧
      Watches K F content mgr' (update place (mgr.poolOf page) place')
        (update pins (mgr.poolOf page) ((page, m) :: pins (mgr.poolOf page))) := by
  have inside := mgr.poolOf_lt page
  obtain ⟨pool', returned, rfl⟩ := fetchPageSync_returns ran
  obtain ⟨place', fetched, handles, sound'⟩ := watches.sound.fetch_at inFile room returned
  have inv := watches.sound.inv _ inside
  refine ⟨pool', place', rfl, sameShape_setPool handles,
    inv.serves (watches.sound.owns inFile) returned, fetched, sound', ?_, ?_, ?_, ?_, ?_⟩
  · intro i bound
    by_cases same : i = mgr.poolOf page
    · subst same
      rw [setPool_pool_self, update_self]
      cases fetched with
      | hit _ r frames => exact fun k tracked => watches.strict _ inside k ((frames.frames k).mp tracked)
      | load _ _ _ _ loaded => exact loaded.strict (watches.strict _ inside)
    · rw [setPool_pool_of_ne _ same, update_of_ne same]
      exact watches.strict i bound
  · intro i bound k other
    by_cases same : i = mgr.poolOf page
    · subst same
      rw [update_self]
      cases fetched with
      | hit => exact watches.unlocked _ bound k other
      | load =>
        by_cases mine : k = m
        · rw [mine, update_self]
          exact Place.locks_resident page other
        · rw [update_of_ne mine]
          exact watches.unlocked _ bound k other
    · rw [update_of_ne same]
      exact watches.unlocked i bound k other
  · change ∀ fd, pool'.disk.files.length ≤ fd ∨ pool'.disk.validFD fd = true → _
    simp only [handles.length, handles.valid]
    exact watches.known
  · intro fd watched
    change pool'.disk.ExactAt fd
    cases fetched with
    | hit => exact watches.exact fd watched
    | load _ _ _ _ loaded =>
      rcases loaded.source with ⟨_, same⟩ | ⟨old, here, _, spilled⟩
      · rw [same]
        exact watches.exact fd watched
      · unfold Spilled at spilled
        split_ifs at spilled
        · have bound := (inv.owned m old (Or.inl here)).fpageId
          refine (watches.exact fd watched).write bound (fun same => ?_) spilled
          rw [← same]
          exact (watches.home _ inside m old here (same ▸ watched)).le
        · rw [spilled]
          exact watches.exact fd watched
  · intro i bound k other there watched
    change other.fpageId * pageSize < pool'.disk.getFileSizeFast other.fd
    rw [handles.size]
    by_cases same : i = mgr.poolOf page
    · subst same
      rw [update_self] at there
      cases fetched with
      | hit => exact watches.home _ bound k other there watched
      | load =>
        by_cases mine : k = m
        · rw [mine, update_self] at there
          cases there
          exact inFile.inside
        · rw [update_of_ne mine] at there
          exact watches.home _ bound k other there watched
    · rw [update_of_ne same] at there
      exact watches.home i bound k other there watched

/-- Calls that leave the places and the disk alone, and the replacers. -/
theorem Watches.transport {content' : Content} {pins' : ℕ → List (Page × ℕ)}
    (watches : Watches K F content mgr place pins)
    (sound : Sound K content' mgr' place pins') (partitioner : mgr'.partitioner = mgr.partitioner)
    (disk : mgr'.disk = mgr.disk) (same : ∀ i, (mgr'.pools i).replacer = (mgr.pools i).replacer) :
    Watches K F content' mgr' place pins' := by
  have strict := watches.same_strict mgr' fun i _ => same i
  rw [← partitioner] at strict
  refine ⟨sound, strict, partitioner ▸ watches.unlocked, disk ▸ watches.known, disk ▸ watches.exact, ?_⟩
  rw [partitioner, disk]
  exact watches.home

omit [Replacer R] [LawfulReplacer R] in
theorem decRefCount_replacers (mgr : BufferPoolManager R) (page : Page) (m : ℕ) (isWrite : Bool) (i : ℕ) :
    ((mgr.decRefCount page m isWrite).pools i).replacer = (mgr.pools i).replacer := by
  change (update mgr.pools _ _ i).replacer = _
  by_cases same : i = mgr.poolOf page
  · rw [same, update_self]
    rfl
  · rw [update_of_ne same]

/-- Releasing a page. -/
theorem Watches.release (watches : Watches K F content mgr place pins) (pin : (page, m) ∈ pins (mgr.poolOf page))
    (isWrite : Bool) : Watches K F content (mgr.decRefCount page m isWrite) place
      (update pins (mgr.poolOf page) ((pins (mgr.poolOf page)).erase (page, m))) :=
  watches.transport (watches.sound.decRefCount pin isWrite) rfl rfl (mgr.decRefCount_replacers page m isWrite)

omit [Replacer R] [LawfulReplacer R] in
theorem write_replacers (mgr : BufferPoolManager R) (page : Page) (m : ℕ) (bytes : Bytes) (i : ℕ) :
    (((mgr.setFrame page m bytes).decRefCount page m true).pools i).replacer = (mgr.pools i).replacer := by
  refine ((mgr.setFrame page m bytes).decRefCount_replacers page m true i).trans ?_
  change (update mgr.pools _ _ i).replacer = _
  by_cases same : i = mgr.poolOf page
  · rw [same, update_self]
    rfl
  · rw [update_of_ne same]

/-- Storing to a page, which is then released. -/
theorem Watches.write (watches : Watches K F content mgr place pins) (inFile : InFile mgr page)
    (pin : (page, m) ∈ pins (mgr.poolOf page)) {bytes : Bytes}
    (past : ∀ i < pageSize, mgr.disk.getFileSizeFast page.fd ≤ page.position i → bytes i = mgr.frame page m i) :
    Watches K F (stored content page bytes) ((mgr.setFrame page m bytes).decRefCount page m true) place
      (update pins (mgr.poolOf page) ((pins (mgr.poolOf page)).erase (page, m))) := by
  have here := watches.sound.resident_of_pin inFile pin
  have sound := watches.sound.write pin here (fun fd i apart => ⟨id, if_neg apart⟩)
    (fun i small _ => (stored_position small).symm) (watches.sound.tail_stored here past)
  exact watches.transport sound rfl rfl (mgr.write_replacers page m bytes)

end BufferPoolManager

end Gbp
