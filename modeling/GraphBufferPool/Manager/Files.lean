import GraphBufferPool.Manager.Invariant
import GraphBufferPool.Replacer.Sieve

/-! # Opening and resizing files

The invariant of the manager starts with `init` and is kept by `OpenFile`. `Resize` keeps it as well,
for the bytes cut at the new size, where no frame holds other bytes behind the new end.
-/

namespace Gbp.BufferPoolManager

open Function LawfulReplacer BufferPool DiskManager

section eachPool

variable {R : Type} (mgr : BufferPoolManager R)

/-- A loop over the pools that changes each of them, and not the disk. -/
theorem eachPool_ok {f : BufferPool R → Except Stop (BufferPool R)} {g : ℕ → BufferPool R}
    (ran : ∀ i < mgr.partitioner.numPartitions, f (mgr.pool i) = .ok (g i))
    (sameDisk : ∀ i < mgr.partitioner.numPartitions, (g i).disk = mgr.disk) :
    ∃ mgr', mgr.eachPool f = .ok mgr' ∧ mgr'.partitioner = mgr.partitioner ∧
      mgr'.poolSize = mgr.poolSize ∧ mgr'.disk = mgr.disk ∧
        ∀ i < mgr.partitioner.numPartitions, mgr'.pools i = g i := by
  have upTo (n : ℕ) (bound : n ≤ mgr.partitioner.numPartitions) : ∃ mgr',
      (List.range n).foldlM (fun mgr i => do return mgr.setPool i (← f (mgr.pool i))) mgr = .ok mgr' ∧
        mgr'.partitioner = mgr.partitioner ∧ mgr'.poolSize = mgr.poolSize ∧ mgr'.disk = mgr.disk ∧
        (∀ i < n, mgr'.pools i = g i) ∧ ∀ i, n ≤ i → mgr'.pools i = mgr.pools i := by
    induction n with
    | zero => exact ⟨mgr, rfl, rfl, rfl, rfl, nofun, fun _ _ => rfl⟩
    | succ n ih =>
      obtain ⟨mgr', folded, partitioner, poolSize, disk, done, rest⟩ := ih (by omega)
      have here : mgr'.pool n = mgr.pool n := by
        rw [BufferPoolManager.pool, rest n le_rfl, disk]
        rfl
      refine ⟨mgr'.setPool n (g n), ?_, partitioner, poolSize, sameDisk n bound, ?_, ?_⟩
      · rw [List.range_succ, List.foldlM_append, folded]
        simp only [ok_bind, List.foldlM_cons, List.foldlM_nil, here, ran n bound]
        rfl
      · intro i below
        rcases Nat.lt_succ_iff_lt_or_eq.mp below with earlier | rfl
        · simp only [setPool, update_of_ne earlier.ne, done i earlier]
        · simp only [setPool, update_self]
      · intro i past
        simp only [setPool, update_of_ne (Nat.ne_of_gt past), rest i (by omega)]
  obtain ⟨mgr', folded, partitioner, poolSize, disk, done, _⟩ := upTo _ le_rfl
  exact ⟨mgr', folded, partitioner, poolSize, disk, done⟩

/-- What each pool is after a loop over the pools that returned and left the disk alone. -/
theorem eachPool_returned {f : BufferPool R → Except Stop (BufferPool R)} {mgr mgr' : BufferPoolManager R}
    (sameDisk : ∀ pool pool', f pool = .ok pool' → pool'.disk = pool.disk)
    (ran : mgr.eachPool f = .ok mgr') : mgr'.partitioner = mgr.partitioner ∧
      mgr'.poolSize = mgr.poolSize ∧ mgr'.disk = mgr.disk ∧
        ∀ i < mgr.partitioner.numPartitions, f (mgr.pool i) = .ok (mgr'.pools i) := by
  have upTo (n : ℕ) (mgr' : BufferPoolManager R)
      (ran : (List.range n).foldlM (fun mgr i => do return mgr.setPool i (← f (mgr.pool i))) mgr = .ok mgr') :
      mgr'.partitioner = mgr.partitioner ∧ mgr'.poolSize = mgr.poolSize ∧ mgr'.disk = mgr.disk ∧
        (∀ i < n, f (mgr.pool i) = .ok (mgr'.pools i)) ∧ ∀ i, n ≤ i → mgr'.pools i = mgr.pools i := by
    induction n generalizing mgr' with
    | zero =>
      cases ran
      exact ⟨rfl, rfl, rfl, nofun, fun _ _ => rfl⟩
    | succ n ih =>
      rw [List.range_succ, List.foldlM_append] at ran
      obtain ⟨before, folded, ran⟩ := bind_eq_ok.mp ran
      obtain ⟨partitioner, poolSize, disk, done, rest⟩ := ih before folded
      rw [List.foldlM_cons] at ran
      obtain ⟨_, last, ran⟩ := bind_eq_ok.mp ran
      cases ran
      obtain ⟨pool, changed, last⟩ := bind_eq_ok.mp last
      cases last
      have here : before.pool n = mgr.pool n := by
        rw [BufferPoolManager.pool, rest n le_rfl, disk]
        rfl
      refine ⟨partitioner, poolSize, (sameDisk _ _ changed).trans disk, ?_, ?_⟩
      · intro i below
        rcases Nat.lt_succ_iff_lt_or_eq.mp below with earlier | rfl
        · simp only [setPool, update_of_ne earlier.ne, done i earlier]
        · simp only [setPool, update_self, ← here, changed]
      · intro i past
        simp only [setPool, update_of_ne (Nat.ne_of_gt past), rest i (by omega)]
  obtain ⟨partitioner, poolSize, disk, done, _⟩ := upTo _ mgr' ran
  exact ⟨partitioner, poolSize, disk, done⟩

end eachPool

variable {R : Type} [Replacer R] [LawfulReplacer R] {K : ℕ → ℕ → Prop} {content content' : Content}
  {mgr mgr' : BufferPoolManager R} {place : ℕ → ℕ → Place} {pins : ℕ → List (Page × ℕ)} {fd : ℕ}

/-- Page tables that grow keep the invariant, for whatever bytes the new disk is coherent with. -/
theorem Sound.grow (sound : Sound K content mgr place pins) (tables : ℕ → PageTable)
    (covers : Covers mgr') (partitioner : mgr'.partitioner = mgr.partitioner)
    (poolSize : mgr'.poolSize = mgr.poolSize)
    (pools : ∀ i < mgr.partitioner.numPartitions,
      mgr'.pools i = { mgr.pool i with pageTable := tables i, disk := mgr'.disk })
    (grown : ∀ i < mgr.partitioner.numPartitions, (mgr.pools i).pageTable.Extends (tables i))
    (valid : ∀ fd < mgr.disk.files.length, mgr'.disk.validFD fd = mgr.disk.validFD fd)
    (coherent : ∀ i < mgr.partitioner.numPartitions, Coherent K content'
      { mgr.pool i with pageTable := tables i, disk := mgr'.disk } (place i)) :
    Sound K content' mgr' place pins := by
  have pool (i : ℕ) (bound : i < mgr.partitioner.numPartitions) :
      mgr'.pool i = { mgr.pool i with pageTable := tables i, disk := mgr'.disk } := by
    rw [BufferPoolManager.pool, pools i bound]
  have registered {i : ℕ} (bound : i < mgr.partitioner.numPartitions) {page : Page}
      (here : (mgr.pools i).pageTable.word? page ≠ none) : page.fd < mgr.disk.files.length := by
    rw [← sound.length i bound]
    refine Nat.lt_of_not_le fun past => here (PageTable.word?_eq_none_iff.mpr fun n there => ?_)
    rw [List.getElem?_eq_none past] at there
    cases there
  exact {
    toCovers := covers
    poolId := by
      intro i bound
      rw [partitioner] at bound
      rw [pools i bound]
      exact sound.poolId i bound
    poolSize := by
      intro i bound
      rw [partitioner] at bound
      rw [pools i bound, poolSize]
      exact sound.poolSize i bound
    inv := by
      intro i bound
      rw [partitioner] at bound
      rw [pool i bound]
      exact (sound.inv i bound).extend (grown i bound) fun page here => valid _ (registered bound here)
    settled := fun i bound => sound.settled i (partitioner ▸ bound)
    coherent := by
      intro i bound
      rw [partitioner] at bound
      rw [pool i bound]
      exact coherent i bound }

/-- The places of the frames of a new pool. -/
def startPlace (poolSize m : ℕ) : Place := if m < poolSize then .free else .absent

/-- The manager of `init` before the first file is opened. -/
def blank (partitioner : Partitioner) (poolSize : ℕ) (memory : ℕ → ℕ → Bytes) : BufferPoolManager R where
  partitioner := partitioner
  poolSize := poolSize
  pools := fun i => BufferPool.init i poolSize partitioner (memory i)
  disk := ⟨[]⟩

theorem blank_inv (part : Partitioner) (poolId poolSize : ℕ) (memory : ℕ → Bytes) :
    BufferPool.Inv (BufferPool.init poolId poolSize part memory : BufferPool R) (startPlace poolSize) [] := by
  have closed (page : Page) :
      ¬ (BufferPool.init poolId poolSize part memory : BufferPool R).Owns page := by
    rintro ⟨_, _, _, valid, _⟩
    cases valid
  have frames : frames (Replacer.new poolSize : R) = [] := frames_new poolSize
  have start (m : ℕ) : startPlace poolSize m = .free ∨ startPlace poolSize m = .absent := by
    unfold startPlace
    split_ifs
    · exact Or.inl rfl
    · exact Or.inr rfl
  have unused (m : ℕ) (page : Page) : (startPlace poolSize m).page? ≠ some page := by
    rcases start m with here | here <;> simp [here, Place.page?]
  have unlocked (m : ℕ) (page : Page) : ¬ (startPlace poolSize m).Locks page := by
    rcases start m with here | here <;> simp [here, Place.Locks]
  exact {
    absent := by
      intro m
      simp [startPlace, BufferPool.init]
    capacity := capacity_new poolSize
    calm := calm_of_ready _ (ready_new poolSize)
    free := by
      intro m
      simp [startPlace, BufferPool.init]
    freeNodup := List.nodup_range
    tracked := fun m page here => absurd here (unused m page)
    known := by
      intro m member
      change m ∈ LawfulReplacer.frames (Replacer.new poolSize : R) at member
      rw [frames] at member
      cases member
    mapped := fun page mine => absurd mine (closed page)
    locked := fun page mine => absurd mine (closed page)
    lockedOnce := fun m _ page here => absurd here (unlocked m page)
    owned := by
      rintro m page (here | here)
      · exact absurd (congrArg Place.page? here) (unused m page)
      · exact absurd here (unlocked m page)
    gone := fun m page here => absurd (congrArg Place.page? here) (unused m page)
    described := fun m page here => absurd here (unused m page)
    settled := fun m page here => absurd (congrArg Place.page? here) (unused m page)
    stuck := fun m page here => absurd (congrArg Place.page? here) (unused m page)
    counted := by
      rintro m page (here | here) <;> exact absurd (congrArg Place.page? here) (unused m page)
    pinned := by simp }

theorem blank_sound (part : Partitioner) (poolSize : ℕ) (memory : ℕ → ℕ → Bytes) :
    Sound K (fun _ _ => 0) (blank part poolSize memory : BufferPoolManager R)
      (fun _ => startPlace poolSize) (fun _ => []) where
  partitioner := fun _ _ => rfl
  poolId := fun _ _ => rfl
  poolSize := fun _ _ => rfl
  inv := fun i _ => blank_inv part i poolSize (memory i)
  settled := by
    intro i _ m page
    unfold startPlace
    split_ifs <;> nofun
  coherent := by
    intro i _
    refine ⟨fun _ _ _ _ => rfl, ?_, ?_, fun _ _ _ _ _ _ => rfl⟩
    · intro m page here
      unfold startPlace at here
      split_ifs at here
    · intro m page here
      unfold startPlace at here
      split_ifs at here
  length := fun _ _ => rfl
  slots := fun _ _ fd valid => by cases valid

theorem startPlace_quiet (poolSize : ℕ) : Quiet (startPlace poolSize) := by
  intro m
  unfold startPlace
  split_ifs
  · exact Or.inr (Or.inl rfl)
  · exact Or.inl rfl

/-- The bytes once a file is open under handle `fd`. -/
def opened (content : Content) (fd : ℕ) (file : DiskFile) : Content :=
  fun fd' i => if fd' = fd then file.byte i else content fd' i

omit [Replacer R] [LawfulReplacer R] in
/-- The mapping of a new file reaches its end. -/
theorem registerFile_covers {numPages size n : ℕ} (small : size ≤ maxFileSize)
    (positive : 0 < numPages) (within : n * (pageSize * numPages) < size) :
    n < ceil (ceil size pageSize % fpageIdRange) numPages := by
  have pages : ceil size pageSize ≤ fpageIdRange - 1 := (ceil_le_iff (by decide)).mpr small
  rw [Nat.mod_eq_of_lt (by unfold fpageIdRange at *; omega), lt_ceil_iff positive,
    lt_ceil_iff (by decide)]
  rwa [Nat.mul_assoc, Nat.mul_comm numPages]

/-- The bytes of a new file, and those of the files before. -/
theorem Coherent.openFile {pool : BufferPool R} {place : ℕ → Place} {pins : List (Page × ℕ)}
    (coherent : Coherent K content pool place) (inv : BufferPool.Inv pool place pins) (file : OsFile)
    (pageTable : PageTable) (grown : pool.pageTable.Extends pageTable) :
    Coherent K (opened content pool.disk.files.length file.1)
      { pool with pageTable := pageTable, disk := (pool.disk.openFile file).2 } place := by
  have older {m : ℕ} {page : Page} (here : place m = .resident page) :
      page.fd ≠ pool.disk.files.length :=
    (lt_of_validFD (inv.owned m page (Or.inl here)).valid).ne
  have same {page : Page} (older : page.fd ≠ pool.disk.files.length)
      (synced : pool.disk.Synced K content page) : (pool.disk.openFile file).2.Synced K
        (opened content pool.disk.files.length file.1) page := by
    intro i small known
    rw [DiskManager.byte, openFile_file, if_neg older, opened, if_neg older]
    exact synced i small known
  refine ⟨?_, ?_, ?_, ?_⟩
  · intro fd i known past
    dsimp only at past
    rw [openFile_size] at past
    rw [opened]
    split_ifs at past ⊢ with new
    · exact file.1.byte_past i past
    · exact coherent.tail fd i known past
  · intro m page here i small known
    rw [opened, if_neg (older here)]
    exact coherent.frame m page here i small known
  · intro m page here clean
    refine same (older here) (coherent.clean m page here ?_)
    rw [← grown.ptes]
    exact clean
  · intro page partition gone
    dsimp only at partition
    rw [grown.partitioner] at partition
    by_cases new : page.fd = pool.disk.files.length
    · intro i small known
      rw [DiskManager.byte, openFile_file, if_pos new, opened, if_pos new]
    · exact same new (coherent.away page partition gone)

/-- The manager after `OpenFile`. -/
structure Opens (mgr : BufferPoolManager R) (file : OsFile) (mgr' : BufferPoolManager R) : Prop where
  partitioner : mgr'.partitioner = mgr.partitioner
  poolSize : mgr'.poolSize = mgr.poolSize
  disk : mgr'.disk = (mgr.disk.openFile file).2
  pools : ∀ i < mgr.partitioner.numPartitions, mgr'.pools i =
    { mgr.pool i with
      pageTable := (mgr.pools i).pageTable.registerFile (ceil file.1.length pageSize)
      disk := mgr'.disk }

omit [Replacer R] [LawfulReplacer R] in
/-- `OpenFile` returns the number of earlier calls. -/
theorem exists_openFile (mgr : BufferPoolManager R) (file : OsFile) :
    ∃ mgr', mgr.openFile file = .ok (mgr.disk.files.length, mgr') ∧ Opens mgr file mgr' := by
  obtain ⟨mgr', ran, partitioner, poolSize, disk, pools⟩ := eachPool_ok
    { mgr with disk := (mgr.disk.openFile file).2 }
    (f := fun pool => .ok (pool.registerFile mgr.disk.files.length)) (fun i _ => rfl) (fun i _ => rfl)
  refine ⟨mgr', ?_, partitioner, poolSize, disk, fun i bound => ?_⟩
  · have opens : mgr.openFile file = { mgr with disk := (mgr.disk.openFile file).2 }.eachPool
        (fun pool => .ok (pool.registerFile mgr.disk.files.length)) >>= fun opened =>
          .ok (mgr.disk.files.length, opened) := rfl
    rw [opens, ran]
    rfl
  · rw [pools i bound, disk]
    have size : (mgr.disk.openFile file).2.getFileSizeFast mgr.disk.files.length = file.1.length := by
      rw [openFile_size, if_pos rfl]
    simp only [BufferPool.registerFile, BufferPoolManager.pool, size]

omit [Replacer R] [LawfulReplacer R] in
/-- The mappings of the new file reach its end. -/
theorem Opens.covers {file : OsFile} (opens : Opens mgr file mgr') (covers : Covers mgr) : Covers mgr' := by
  have shape (i : ℕ) (bound : i < mgr.partitioner.numPartitions) : (mgr'.pools i).pageTable.shape =
        (mgr.pools i).pageTable.shape ++
          [some (ceil (ceil file.1.length pageSize % fpageIdRange) mgr.partitioner.numPartitions)] := by
    rw [opens.pools i bound]
    simp [PageTable.shape, PageTable.registerFile, covers.partitioner i bound]
  refine ⟨?_, ?_, ?_⟩
  · intro i bound
    rw [opens.partitioner] at bound ⊢
    rw [opens.pools i bound]
    exact covers.partitioner i bound
  · intro i bound
    rw [opens.partitioner] at bound
    rw [shape i bound, opens.disk, openFile_length, List.length_append, covers.length i bound]
    rfl
  · intro i bound fd valid
    rw [opens.partitioner] at bound ⊢
    rw [opens.disk, openFile_validFD] at valid
    rw [shape i bound, opens.disk, openFile_size]
    split_ifs at valid ⊢ with new
    · refine ⟨_, by rw [new, ← covers.length i bound, List.getElem?_concat_length], fun small k within => ?_⟩
      exact registerFile_covers small mgr.partitioner.numPartitions_pos within
    · obtain ⟨n, here, reaches⟩ := covers.slots i bound fd valid
      refine ⟨n, ?_, reaches⟩
      rw [List.getElem?_append_left (List.getElem?_eq_some_iff.mp here).1]
      exact here

/-- The bytes of the new file are those the operating system has. -/
theorem Opens.sound {file : OsFile} (opens : Opens mgr file mgr')
    (sound : Sound K content mgr place pins) :
    Sound K (opened content mgr.disk.files.length file.1) mgr' place pins := by
  refine sound.grow _ (opens.covers sound.toCovers) opens.partitioner opens.poolSize opens.pools
    (fun i _ => PageTable.extends_registerFile _ _) ?_ ?_
  · intro fd inside
    rw [opens.disk, openFile_validFD, if_neg inside.ne]
  · intro i bound
    rw [opens.disk]
    exact Coherent.openFile (sound.coherent i bound) (sound.inv i bound) file _
      (PageTable.extends_registerFile _ _)

omit [LawfulReplacer R] in
/-- `init` opens the first file. -/
theorem opens_init (part : Partitioner) (poolSize : ℕ) (memory : ℕ → ℕ → Bytes) (file : OsFile) :
    Opens (blank part poolSize memory : BufferPoolManager R) file (.init part poolSize memory file) := by
  refine ⟨rfl, rfl, rfl, fun i bound => ?_⟩
  have size : (DiskManager.openFile ⟨[]⟩ file).2.getFileSizeFast 0 = file.1.length := by
    rw [openFile_size]
    rfl
  change BufferPool.registerFile { BufferPool.init i poolSize part (memory i) with
    disk := (DiskManager.openFile ⟨[]⟩ file).2 } 0 = _
  simp only [BufferPool.registerFile, size]
  rfl

/-- The bytes after `ftruncate` of a file to `size` bytes. -/
def truncated (content : Content) (fd size : ℕ) : Content :=
  fun fd' i => if fd' = fd ∧ size ≤ i then 0 else content fd' i

/-- No frame holds other bytes than zeros at or behind position `size` of a file. -/
def Clear (K : ℕ → ℕ → Prop) (mgr : BufferPoolManager R) (place : ℕ → ℕ → Place) (fd size : ℕ) : Prop :=
  ∀ i < mgr.partitioner.numPartitions, ∀ m page, place i m = .resident page → page.fd = fd →
    ∀ j < pageSize, size ≤ page.position j → K fd (page.position j) → (mgr.pools i).memory m j = 0

omit [Replacer R] [LawfulReplacer R] in
/-- A truncated file and a pool without stale bytes agree on the truncated bytes. -/
theorem Coherent.resize {pool : BufferPool R} {place : ℕ → Place}
    (coherent : Coherent K content pool place) {newSize : ℕ} (bound : newSize < 2 ^ 64)
    (valid : pool.disk.validFD fd = true) (pageTable : PageTable)
    (grown : pool.pageTable.Extends pageTable)
    (clear : ∀ m page, place m = .resident page → page.fd = fd → ∀ j < pageSize,
      newSize ≤ page.position j → K fd (page.position j) → pool.memory m j = 0) :
    Coherent K (truncated content fd newSize)
      { pool with pageTable := pageTable, disk := pool.disk.withSize fd newSize bound } place := by
  have same {page : Page} (synced : pool.disk.Synced K content page) :
      (pool.disk.withSize fd newSize bound).Synced K (truncated content fd newSize) page := by
    intro i small known
    rw [DiskManager.byte, withSize_file newSize bound valid, truncated]
    by_cases here : page.fd = fd
    · subst here
      rw [if_pos rfl]
      by_cases past : newSize ≤ page.position i
      · rw [if_pos ⟨rfl, past⟩]
        exact if_neg (Nat.not_lt.mpr past)
      · rw [if_neg (fun both => past both.2)]
        exact (if_pos (Nat.lt_of_not_le past)).trans (synced i small known)
    · rw [if_neg here, if_neg (fun both => here both.1)]
      exact synced i small known
  refine ⟨?_, ?_, ?_, ?_⟩
  · intro fd' i known past
    dsimp only at past
    rw [withSize_size newSize bound valid] at past
    rw [truncated]
    by_cases cut : fd' = fd ∧ newSize ≤ i
    · exact if_pos cut
    · rw [if_neg cut]
      refine coherent.tail fd' i known ?_
      by_cases here : fd' = fd
      · exact absurd ⟨here, by rwa [if_pos here] at past⟩ cut
      · rwa [if_neg here] at past
  · intro m page here i small known
    rw [truncated]
    split_ifs with cut
    · exact clear m page here cut.1 i small cut.2 (cut.1 ▸ known)
    · exact coherent.frame m page here i small known
  · intro m page here clean
    refine same (coherent.clean m page here ?_)
    rw [← grown.ptes]
    exact clean
  · intro page partition gone
    dsimp only at partition
    rw [grown.partitioner] at partition
    exact same (coherent.away page partition gone)

/-- The mapping of a resized file reaches its end. -/
theorem grownMapping_covers {size numPages old n : ℕ} (small : size ≤ maxFileSize)
    (positive : 0 < numPages) (within : n * (pageSize * numPages) < size) :
    n < max old (ceil (ceil size numPages) pageSize % fpageIdRange) := by
  have pages : ceil (ceil size numPages) pageSize ≤ fpageIdRange - 1 := by
    rw [ceil_le_iff (by decide), ceil_le_iff positive]
    exact small.trans (Nat.le_mul_of_pos_right _ positive)
  refine lt_max_of_lt_right ?_
  rw [Nat.mod_eq_of_lt (by unfold fpageIdRange at *; omega), lt_ceil_iff (by decide),
    lt_ceil_iff positive]
  rwa [Nat.mul_assoc]

/-- The manager after `Resize`. -/
structure Resizes (mgr : BufferPoolManager R) (fd newSize : ℕ) (bound : newSize < 2 ^ 64)
    (mgr' : BufferPoolManager R) : Prop where
  partitioner : mgr'.partitioner = mgr.partitioner
  poolSize : mgr'.poolSize = mgr.poolSize
  disk : mgr'.disk = mgr.disk.withSize fd newSize bound
  pools : ∀ i < mgr.partitioner.numPartitions, ∃ mapping pageTable,
    (mgr.pools i).pageTable.mappings[fd]? = some (some mapping) ∧
    (mgr.pools i).pageTable.Extends pageTable ∧
    pageTable.mappings = (mgr.pools i).pageTable.mappings.set fd (some (PageTable.grownMapping mapping
      (ceil (ceil newSize mgr.partitioner.numPartitions) pageSize % fpageIdRange))) ∧
    mgr'.pools i = { mgr.pool i with pageTable := pageTable, disk := mgr'.disk }

/-- The pages of a file of some size that fall to one pool are no more than a mapping can be filled with. -/
def PagesFit (mgr : BufferPoolManager R) (size : ℕ) : Prop :=
  ceil (ceil size mgr.partitioner.numPartitions) pageSize ≤ PageTable.maxSlots

omit [Replacer R] [LawfulReplacer R] in
/-- What `Resize` leaves where it returns. -/
theorem resize_returned {newSize : ℕ} {bound : newSize < 2 ^ 64} (ran : mgr.resize fd newSize bound = .ok mgr') :
    mgr.disk.validFD fd = true ∧ newSize < 2 ^ 63 ∧ Resizes mgr fd newSize bound mgr' := by
  obtain ⟨disk, truncated, ran⟩ := bind_eq_ok.mp ran
  obtain ⟨valid, small, rfl⟩ := (resize_eq_ok newSize bound).mp truncated
  obtain ⟨partitioner, poolSize, disk, pools⟩ := eachPool_returned
    (fun pool pool' resized => by
      obtain ⟨_, _, resized⟩ := bind_eq_ok.mp resized
      cases resized
      rfl) ran
  refine ⟨valid, small, partitioner, poolSize, disk, fun i inside => ?_⟩
  obtain ⟨pageTable, resized, same⟩ := bind_eq_ok.mp (pools i inside)
  obtain ⟨mapping, here, rfl⟩ := PageTable.resizeFile_shape resized
  refine ⟨mapping, _, here, PageTable.extends_grownMapping _ here, rfl, ?_⟩
  rw [disk]
  exact (Except.ok.inj same).symm

omit [Replacer R] [LawfulReplacer R] in
/-- `Resize` of an open file returns where the size is an `off_t` and the pages fit the mappings. -/
theorem exists_resize (covers : Covers mgr) {newSize : ℕ} (bound : newSize < 2 ^ 64)
    (valid : mgr.disk.validFD fd = true) (small : newSize < 2 ^ 63) (fits : PagesFit mgr newSize) :
    ∃ mgr', mgr.resize fd newSize bound = .ok mgr' := by
  have resized (i : ℕ) (inside : i < mgr.partitioner.numPartitions) :
      ∃ pageTable, (mgr.pools i).pageTable.resizeFile fd
        (ceil (ceil newSize mgr.partitioner.numPartitions) pageSize) = .ok pageTable := by
    obtain ⟨n, here, _⟩ := covers.slots i inside fd valid
    simp only [PageTable.shape, List.getElem?_map, Option.map_eq_some_iff] at here
    obtain ⟨_, here, mapping, rfl, _⟩ := here
    exact ⟨_, PageTable.resizeFile_eq here ((Nat.mod_le ..).trans fits)⟩
  have : Nonempty PageTable := ⟨(mgr.pools 0).pageTable⟩
  choose! tables ran using resized
  obtain ⟨mgr', returned, _⟩ := eachPool_ok { mgr with disk := mgr.disk.withSize fd newSize bound }
    (f := fun pool => pool.resize fd (ceil newSize mgr.partitioner.numPartitions))
    (g := fun i => { mgr.pools i with
      pageTable := tables i
      disk := mgr.disk.withSize fd newSize bound })
    (fun i inside => by
      have same : ((mgr.pools i).pageTable.resizeFile fd
          (ceil (ceil newSize mgr.partitioner.numPartitions) pageSize)) = .ok (tables i) := ran i inside
      simp only [BufferPool.resize, BufferPoolManager.pool, same]
      rfl) (fun _ _ => rfl)
  refine ⟨mgr', ?_⟩
  rw [BufferPoolManager.resize, resize_eq newSize bound valid small]
  exact returned

omit [Replacer R] [LawfulReplacer R] in
/-- The mappings of the resized file reach its new end. -/
theorem Resizes.covers {newSize : ℕ} {bound : newSize < 2 ^ 64}
    (resizes : Resizes mgr fd newSize bound mgr') (valid : mgr.disk.validFD fd = true)
    (covers : Covers mgr) : Covers mgr' := by
  have shape (i : ℕ) (inside : i < mgr.partitioner.numPartitions) : ∃ old : ℕ,
      (mgr'.pools i).pageTable.partitioner = mgr.partitioner ∧
      (mgr'.pools i).pageTable.shape = (mgr.pools i).pageTable.shape.set fd (some (max old
        (ceil (ceil newSize mgr.partitioner.numPartitions) pageSize % fpageIdRange))) := by
    obtain ⟨mapping, pageTable, _, grown, mappings, same⟩ := resizes.pools i inside
    refine ⟨mapping.length, ?_, ?_⟩
    · rw [same]
      exact grown.partitioner.trans (covers.partitioner i inside)
    · rw [same, PageTable.shape, mappings, List.map_set, Option.map_some,
        PageTable.grownMapping_length]
      rfl
  refine ⟨?_, ?_, ?_⟩
  · intro i inside
    rw [resizes.partitioner] at inside ⊢
    exact (shape i inside).choose_spec.1
  · intro i inside
    rw [resizes.partitioner] at inside
    obtain ⟨old, _, shape⟩ := shape i inside
    rw [shape, List.length_set, resizes.disk, withSize_length]
    exact covers.length i inside
  · intro i inside fd' valid'
    rw [resizes.partitioner] at inside ⊢
    rw [resizes.disk, withSize_validFD] at valid'
    obtain ⟨old, _, shape⟩ := shape i inside
    rw [shape, resizes.disk, withSize_size newSize bound valid]
    obtain ⟨n, before, reaches⟩ := covers.slots i inside fd' valid'
    by_cases same : fd' = fd
    · subst same
      refine ⟨_, List.getElem?_set_self (List.getElem?_eq_some_iff.mp before).1, ?_⟩
      rw [if_pos rfl]
      exact fun small k within => grownMapping_covers small mgr.partitioner.numPartitions_pos within
    · rw [if_neg same]
      exact ⟨n, by rw [List.getElem?_set_ne (Ne.symm same)]; exact before, reaches⟩

/-- Where no frame holds stale bytes, the bytes after `Resize` are those that `ftruncate` leaves. -/
theorem Resizes.sound {newSize : ℕ} {bound : newSize < 2 ^ 64}
    (resizes : Resizes mgr fd newSize bound mgr') (valid : mgr.disk.validFD fd = true)
    (sound : Sound K content mgr place pins) (clear : Clear K mgr place fd newSize) :
    Sound K (truncated content fd newSize) mgr' place pins := by
  have pools := resizes.pools
  have : Nonempty PageTable := ⟨(mgr.pools 0).pageTable⟩
  choose! mapping tables here grown mappings pools using pools
  refine sound.grow tables (resizes.covers valid sound.toCovers) resizes.partitioner resizes.poolSize
    pools grown ?_ ?_
  · intro fd' _
    rw [resizes.disk]
    exact withSize_validFD ..
  · intro i inside
    rw [resizes.disk]
    exact Coherent.resize (sound.coherent i inside) bound valid _ (grown i inside) (clear i inside)

/-- A file of zeros. -/
def zeroFile (length : ℕ) (bound : length < 2 ^ 64) : OsFile := ⟨⟨length, fun _ => 0, fun _ _ => rfl⟩, bound⟩

/-- One pool with one frame, and a file. -/
def oneFrame (file : OsFile) : BufferPoolManager SieveReplacer_v3 := .init ⟨0⟩ 1 (fun _ _ _ => 0) file

end Gbp.BufferPoolManager
