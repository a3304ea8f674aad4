import GraphBufferPool.Manager.Manager
import GraphBufferPool.Pool.Content

/-! # The invariant of the manager

`Sound` collects the invariants of the pools over the shared disk and the bytes `Coherent` claims of
them; `Covers` says that the mappings of an open file reach its end. An operation of one pool keeps it as soon as it
keeps the invariant of that pool and leaves the disk at least as up to date as it was.
-/

namespace Gbp.BufferPoolManager

open Function LawfulReplacer Fuel BufferPool DiskManager

variable {R : Type} [Replacer R] [LawfulReplacer R]

/-- The largest file whose number of pages fits `fpage_id_type`. -/
abbrev maxFileSize : ℕ := (fpageIdRange - 1) * pageSize

/-- Every pool has a mapping for each handle, and that of an open file reaches its end. -/
structure Covers (mgr : BufferPoolManager R) : Prop where
  partitioner : ∀ i < mgr.partitioner.numPartitions,
    (mgr.pools i).pageTable.partitioner = mgr.partitioner
  length : ∀ i < mgr.partitioner.numPartitions,
    (mgr.pools i).pageTable.shape.length = mgr.disk.files.length
  slots : ∀ i < mgr.partitioner.numPartitions, ∀ fd, mgr.disk.validFD fd = true →
    ∃ n, (mgr.pools i).pageTable.shape[fd]? = some (some n) ∧
      (mgr.disk.getFileSizeFast fd ≤ maxFileSize →
        ∀ k, k * (pageSize * mgr.partitioner.numPartitions) < mgr.disk.getFileSizeFast fd → k < n)

/-- The invariant of the pools, requests that have taken a frame included. -/
structure Pools (K : ℕ → ℕ → Prop) (content : Content) (mgr : BufferPoolManager R)
    (place : ℕ → ℕ → Place) (pins : ℕ → List (Page × ℕ)) : Prop extends Covers mgr where
  poolId : ∀ i < mgr.partitioner.numPartitions, (mgr.pools i).poolId = i
  poolSize : ∀ i < mgr.partitioner.numPartitions, (mgr.pools i).poolSize = mgr.poolSize
  inv : ∀ i < mgr.partitioner.numPartitions, BufferPool.Inv (mgr.pool i) (place i) (pins i)
  coherent : ∀ i < mgr.partitioner.numPartitions, Coherent K content (mgr.pool i) (place i)

/-- The invariant between calls. -/
structure Sound (K : ℕ → ℕ → Prop) (content : Content) (mgr : BufferPoolManager R)
    (place : ℕ → ℕ → Place) (pins : ℕ → List (Page × ℕ)) : Prop extends Pools K content mgr place pins where
  settled : ∀ i < mgr.partitioner.numPartitions, ∀ m page, place i m ≠ .loading page

/-- The pages a caller may ask for: of an open file, with a handle that fits the entry. -/
structure InFile (mgr : BufferPoolManager R) (page : Page) : Prop where
  handle : page.fd < 2 ^ 13
  valid : mgr.disk.validFD page.fd = true
  small : mgr.disk.getFileSizeFast page.fd ≤ maxFileSize
  inside : page.fpageId * pageSize < mgr.disk.getFileSizeFast page.fd

variable {K K' : ℕ → ℕ → Prop} {content content' : Content} {mgr mgr' : BufferPoolManager R}
  {place : ℕ → ℕ → Place} {pins : ℕ → List (Page × ℕ)} {page : Page} {m : ℕ}

omit [Replacer R] [LawfulReplacer R] in
theorem poolOf_lt (mgr : BufferPoolManager R) (page : Page) :
    mgr.poolOf page < mgr.partitioner.numPartitions :=
  mgr.partitioner.getPartitionId_lt page.fpageId

omit [Replacer R] [LawfulReplacer R] in
@[simp] theorem setPool_pool_self (i : ℕ) (pool : BufferPool R) : (mgr.setPool i pool).pool i = pool := by
  simp [setPool, BufferPoolManager.pool]

omit [Replacer R] [LawfulReplacer R] in
theorem setPool_pool_of_ne {i j : ℕ} (pool : BufferPool R) (apart : j ≠ i) :
    (mgr.setPool i pool).pool j = { mgr.pool j with disk := pool.disk } := by
  simp [setPool, BufferPoolManager.pool, update_of_ne apart]

omit [Replacer R] [LawfulReplacer R] in
theorem InFile.fpageId_lt (inFile : InFile mgr page) : page.fpageId < fpageIdRange := by
  have small := inFile.small
  have inside := inFile.inside
  unfold maxFileSize fpageIdRange pageSize at *
  omega

/-- The mapping of a file has a slot for each of its pages. -/
theorem Covers.covers_page {R : Type} {mgr : BufferPoolManager R} (covers : Covers mgr) {page : Page}
    (valid : mgr.disk.validFD page.fd = true)
    (small : mgr.disk.getFileSizeFast page.fd ≤ maxFileSize)
    (inside : page.fpageId * pageSize < mgr.disk.getFileSizeFast page.fd) :
    ∃ n, (mgr.pools (mgr.poolOf page)).pageTable.shape[page.fd]? = some (some n) ∧
      mgr.partitioner.getFPageIdInPartition page.fpageId < n := by
  obtain ⟨n, here, reaches⟩ := covers.slots _ (mgr.poolOf_lt page) page.fd valid
  refine ⟨n, here, ?_⟩
  rw [Partitioner.getFPageIdInPartition_eq]
  apply reaches small
  have start := Nat.div_mul_le_self page.fpageId mgr.partitioner.numPartitions
  rw [Nat.mul_comm pageSize, ← Nat.mul_assoc]
  exact (Nat.mul_le_mul_right pageSize start).trans_lt inside

/-- The pool of a page owns it. -/
theorem Pools.owns (sound : Pools K content mgr place pins) (inFile : InFile mgr page) :
    (mgr.pool (mgr.poolOf page)).Owns page where
  partition := by
    change (mgr.pools _).pageTable.partitioner.getPartitionId _ = (mgr.pools _).poolId
    rw [sound.partitioner _ (mgr.poolOf_lt page), sound.poolId _ (mgr.poolOf_lt page)]
    rfl
  fpageId := inFile.fpageId_lt
  handle := inFile.handle
  valid := inFile.valid
  registered := by
    obtain ⟨n, here, within⟩ := sound.covers_page inFile.valid inFile.small inFile.inside
    change (mgr.pools (mgr.poolOf page)).pageTable.word? page ≠ none
    rw [Ne, PageTable.word?_eq_none_iff]
    intro short
    have past := short n here
    rw [sound.partitioner _ (mgr.poolOf_lt page)] at past
    omega


/-- The invariant for fewer known positions. -/
theorem Sound.mono (sound : Sound K content mgr place pins)
    (fewer : ∀ fd i, K' fd i → K fd i) : Sound K' content mgr place pins := by
  refine { sound with coherent := fun i inside => ?_ }
  obtain ⟨tail, frame, clean, away⟩ := sound.coherent i inside
  refine ⟨fun fd i known => tail fd i (fewer fd i known), ?_, ?_, ?_⟩
  · exact fun m page here j small known => frame m page here j small (fewer _ _ known)
  · exact fun m page here still j small known => clean m page here still j small (fewer _ _ known)
  · exact fun page mine gone j small known => away page mine gone j small (fewer _ _ known)

/-- The same pools over the same handles and sizes. -/
structure SameShape (mgr mgr' : BufferPoolManager R) : Prop where
  partitioner : mgr'.partitioner = mgr.partitioner
  poolSize : mgr'.poolSize = mgr.poolSize
  handles : SameHandles mgr.disk mgr'.disk

omit [Replacer R] [LawfulReplacer R] in
theorem SameShape.refl (mgr : BufferPoolManager R) : SameShape mgr mgr := ⟨rfl, rfl, .refl _⟩

omit [Replacer R] [LawfulReplacer R] in
theorem SameShape.trans {first second third : BufferPoolManager R} (before : SameShape first second)
    (after : SameShape second third) : SameShape first third :=
  ⟨after.partitioner.trans before.partitioner, after.poolSize.trans before.poolSize,
    before.handles.trans after.handles⟩

omit [Replacer R] [LawfulReplacer R] in
theorem SameShape.inFile (same : SameShape mgr mgr') (inFile : InFile mgr page) : InFile mgr' page where
  handle := inFile.handle
  valid := (same.handles.valid _).trans inFile.valid
  small := (same.handles.size _).trans_le inFile.small
  inside := inFile.inside.trans_eq (same.handles.size _).symm

omit [Replacer R] [LawfulReplacer R] in
theorem SameShape.poolOf (same : SameShape mgr mgr') (page : Page) : mgr'.poolOf page = mgr.poolOf page := by
  rw [BufferPoolManager.poolOf, BufferPoolManager.poolOf, same.partitioner]

/-- An operation of pool `i` that keeps its invariant keeps that of the manager. -/
theorem Pools.setPool (pools : Pools K content mgr place pins) {i : ℕ}
    (inside : i < mgr.partitioner.numPartitions) {pool' : BufferPool R} {place' : ℕ → Place}
    {pins' : List (Page × ℕ)} (files : SameFiles (mgr.pool i) pool')
    (handles : SameHandles mgr.disk pool'.disk) (inv : BufferPool.Inv pool' place' pins')
    (coherent : Coherent K' content' pool' place')
    (others : ∀ j < mgr.partitioner.numPartitions, j ≠ i →
      Coherent K' content' { mgr.pool j with disk := pool'.disk } (place j)) :
    Pools K' content' (mgr.setPool i pool') (update place i place') (update pins i pins') := by
  have field {α : Type} (get : BufferPool R → α) (same : get pool' = get (mgr.pools i)) (j : ℕ) :
      get ((mgr.setPool i pool').pools j) = get (mgr.pools j) := by
    by_cases here : j = i
    · subst here
      simp [BufferPoolManager.setPool, same]
    · simp [BufferPoolManager.setPool, update_of_ne here]
  exact {
    partitioner := fun j bound =>
      (field (fun pool => pool.pageTable.partitioner) files.partitioner j).trans (pools.partitioner j bound)
    poolId := fun j bound => (field BufferPool.poolId files.poolId j).trans (pools.poolId j bound)
    poolSize := fun j bound => (field BufferPool.poolSize files.poolSize j).trans (pools.poolSize j bound)
    inv := by
      intro j bound
      by_cases here : j = i
      · subst here
        simpa using inv
      · rw [setPool_pool_of_ne _ here, update_of_ne here, update_of_ne here]
        exact (pools.inv j bound).withDisk handles.valid
    coherent := by
      intro j bound
      by_cases here : j = i
      · subst here
        simpa using coherent
      · rw [setPool_pool_of_ne _ here, update_of_ne here]
        exact others j bound here
    length := fun j bound =>
      ((field (fun pool => pool.pageTable.shape.length) (congrArg List.length files.shape) j).trans
        (pools.length j bound)).trans handles.length.symm
    slots := by
      intro j bound fd valid
      obtain ⟨n, here, covers⟩ := pools.slots j bound fd ((handles.valid _).symm.trans valid)
      refine ⟨n, (congrArg (fun shape : List (Option ℕ) => shape[fd]?)
        (field (fun pool => pool.pageTable.shape) files.shape j)).trans here, ?_⟩
      change pool'.disk.getFileSizeFast fd ≤ _ → ∀ k, _ < pool'.disk.getFileSizeFast fd → k < n
      rw [handles.size]
      exact covers }

theorem Sound.setPool (sound : Sound K content mgr place pins) {i : ℕ}
    (inside : i < mgr.partitioner.numPartitions) {pool' : BufferPool R} {place' : ℕ → Place}
    {pins' : List (Page × ℕ)} (files : SameFiles (mgr.pool i) pool')
    (handles : SameHandles mgr.disk pool'.disk) (inv : BufferPool.Inv pool' place' pins')
    (settled : ∀ m page, place' m ≠ .loading page) (coherent : Coherent K' content' pool' place')
    (others : ∀ j < mgr.partitioner.numPartitions, j ≠ i →
      Coherent K' content' { mgr.pool j with disk := pool'.disk } (place j)) :
    Sound K' content' (mgr.setPool i pool') (update place i place') (update pins i pins') := by
  refine ⟨sound.toPools.setPool inside files handles inv coherent others, ?_⟩
  intro j bound
  by_cases here : j = i
  · subst here
    simpa using settled
  · rw [update_of_ne here]
    exact sound.settled j bound

omit [Replacer R] [LawfulReplacer R] in
theorem sameShape_setPool {i : ℕ} {pool : BufferPool R} (handles : SameHandles mgr.disk pool.disk) :
    SameShape mgr (mgr.setPool i pool) := ⟨rfl, rfl, handles⟩

omit [LawfulReplacer R] in
theorem fetchPageSync_pool (mgr : BufferPoolManager R) (page : Page) {pool' : BufferPool R}
    (ran : Returns (fun fuel => BufferPool.fetchPageSync fuel page (mgr.pool (mgr.poolOf page)))
      (m, pool')) : Returns (fun fuel => mgr.fetchPageSync fuel page)
        (m, mgr.setPool (mgr.poolOf page) pool') :=
  ran.bind .const

/-- The place of the frame that a fetch returns. -/
theorem Sound.fetch_at (sound : Sound K content mgr place pins) (inFile : InFile mgr page)
    (room : ∀ m, Room (pins (mgr.poolOf page)) m) {pool' : BufferPool R}
    (ran : Returns (fun fuel => BufferPool.fetchPageSync fuel page (mgr.pool (mgr.poolOf page)))
      (m, pool')) :
    ∃ place', Fetched (mgr.pool (mgr.poolOf page)) (place (mgr.poolOf page)) page m pool' place' ∧
      SameHandles mgr.disk pool'.disk ∧
        Sound K content (mgr.setPool (mgr.poolOf page) pool') (update place (mgr.poolOf page) place')
          (update pins (mgr.poolOf page) ((page, m) :: pins (mgr.poolOf page))) := by
  have inside := mgr.poolOf_lt page
  have owns := sound.owns inFile
  have inv := sound.inv _ inside
  have settled := sound.settled _ inside
  obtain ⟨place', fetched, inv'⟩ :=
    inv.fetchPageSync_sound (inv.able settled) owns room ran
  obtain ⟨coherent', synced⟩ := (sound.coherent _ inside).fetched inv owns room fetched
  have shape : SameFiles (mgr.pool (mgr.poolOf page)) pool' ∧ SameHandles mgr.disk pool'.disk := by
    cases fetched with
    | hit => exact ⟨⟨rfl, rfl, rfl, fun _ => rfl, rfl⟩, .refl _⟩
    | load _ _ _ _ loaded => exact ⟨loaded.files, loaded.handles⟩
  have settled' : ∀ k other, place' k ≠ .loading other := by
    intro k other
    cases fetched with
    | hit => exact settled k other
    | load =>
      by_cases here : k = m
      · subst here
        simp
      · rw [update_of_ne here]
        exact settled k other
  refine ⟨place', fetched, shape.2, ?_⟩
  refine sound.setPool inside shape.1 shape.2 inv' settled' coherent' fun j bound _ => ?_
  exact (sound.coherent j bound).withDisk shape.2 synced

/-- A fetch of a page that a caller may ask for pins it and changes no byte. -/
theorem Sound.fetch_sound (sound : Sound K content mgr place pins) (inFile : InFile mgr page)
    (room : ∀ m, Room (pins (mgr.poolOf page)) m) {pool' : BufferPool R}
    (ran : Returns (fun fuel => BufferPool.fetchPageSync fuel page (mgr.pool (mgr.poolOf page)))
      (m, pool')) :
    ∃ place', place' m = .resident page ∧ (Quiet (place (mgr.poolOf page)) → Quiet place') ∧
      (∀ pin ∈ pins (mgr.poolOf page), pool'.memory pin.2 = (mgr.pools (mgr.poolOf page)).memory pin.2) ∧
      SameHandles mgr.disk pool'.disk ∧
        Sound K content (mgr.setPool (mgr.poolOf page) pool') (update place (mgr.poolOf page) place')
          (update pins (mgr.poolOf page) ((page, m) :: pins (mgr.poolOf page))) := by
  obtain ⟨place', fetched, handles, sound'⟩ := sound.fetch_at inFile room ran
  have inv := sound.inv _ (mgr.poolOf_lt page)
  exact ⟨place', fetched.resident, fetched.quiet, fun _ => fetched.memory_pinned inv, handles, sound'⟩

omit [LawfulReplacer R] in
/-- A fetch of the manager is one of the pool of the page. -/
theorem fetchPageSync_returns (ran : Returns (fun fuel => mgr.fetchPageSync fuel page) (m, mgr')) :
    ∃ pool', Returns (fun fuel => BufferPool.fetchPageSync fuel page (mgr.pool (mgr.poolOf page))) (m, pool') ∧
      mgr.setPool (mgr.poolOf page) pool' = mgr' := by
  obtain ⟨fuel, enough⟩ := ran
  obtain ⟨⟨m', pool'⟩, first, same⟩ := bind_eq_ok.mp (enough fuel le_rfl)
  cases same
  exact ⟨pool', (BufferPool.fetchPageSync_stable _ _).returns first, rfl⟩

/-- Every pool has a frame to spare, and every count room for one more pin. -/
def Spare (mgr : BufferPoolManager R) (pins : ℕ → List (Page × ℕ)) : Prop :=
  ∀ i < mgr.partitioner.numPartitions, (pins i).length < mgr.poolSize ∧ ∀ m, Room (pins i) m

/-- No pool has a locked, orphaned or taken frame. -/
def AllQuiet (mgr : BufferPoolManager R) (place : ℕ → ℕ → Place) : Prop :=
  ∀ i < mgr.partitioner.numPartitions, Quiet (place i)

/-- A fetch that returns, between calls: of the frames whose pages are pinned it changes no byte. -/
theorem Sound.fetched (sound : Sound K content mgr place pins) (inFile : InFile mgr page)
    (room : ∀ m, Room (pins (mgr.poolOf page)) m)
    (ran : Returns (fun fuel => mgr.fetchPageSync fuel page) (m, mgr')) :
    ∃ place', place' (mgr.poolOf page) m = .resident page ∧ (AllQuiet mgr place → AllQuiet mgr' place') ∧
      SameShape mgr mgr' ∧
      (∀ i, ∀ pin ∈ pins i, (mgr'.pools i).memory pin.2 = (mgr.pools i).memory pin.2) ∧
      Sound K content mgr' place' (update pins (mgr.poolOf page) ((page, m) :: pins (mgr.poolOf page))) := by
  have inside := mgr.poolOf_lt page
  obtain ⟨pool', returned, rfl⟩ := fetchPageSync_returns ran
  obtain ⟨place', here, quiet', kept, handles, sound'⟩ := sound.fetch_sound inFile room returned
  refine ⟨_, ?_, fun quiet i bound => ?_, sameShape_setPool handles, fun i pin member => ?_, sound'⟩
  · rw [update_self, here]
  · by_cases same : i = mgr.poolOf page
    · subst same
      rw [update_self]
      exact quiet' (quiet _ inside)
    · rw [update_of_ne same]
      exact quiet i bound
  · by_cases same : i = mgr.poolOf page
    · subst same
      simp only [BufferPoolManager.setPool, update_self]
      exact kept pin member
    · simp only [BufferPoolManager.setPool, update_of_ne same]

/-- Between calls that return, a fetch of a page that a caller may ask for returns. -/
theorem Sound.fetch (sound : Sound K content mgr place pins) (quiet : AllQuiet mgr place)
    (spare : Spare mgr pins) (inFile : InFile mgr page) :
    ∃ m mgr' place', Returns (fun fuel => mgr.fetchPageSync fuel page) (m, mgr') ∧
      place' (mgr.poolOf page) m = .resident page ∧ AllQuiet mgr' place' ∧ SameShape mgr mgr' ∧
        Sound K content mgr' place'
          (update pins (mgr.poolOf page) ((page, m) :: pins (mgr.poolOf page))) := by
  have inside := mgr.poolOf_lt page
  obtain ⟨enough, room⟩ := spare _ inside
  rw [← sound.poolSize _ inside] at enough
  obtain ⟨m, pool', returned⟩ :=
    (sound.inv _ inside).fetchPageSync_complete (quiet _ inside) (sound.owns inFile) enough
  have ran := mgr.fetchPageSync_pool page returned
  obtain ⟨place', here, quiet', shape, _, sound'⟩ := sound.fetched inFile room ran
  exact ⟨m, _, place', ran, here, quiet' quiet, shape, sound'⟩

/-- A frame holds the bytes of its page. -/
theorem Sound.frame_byte (sound : Sound K content mgr place pins)
    (here : place (mgr.poolOf page) m = .resident page) {i : ℕ} (small : i < pageSize)
    (known : K page.fd (page.position i)) :
    mgr.frame page m i = content page.fd (page.position i) :=
  (sound.coherent _ (mgr.poolOf_lt page)).frame m page here i small known

omit [Replacer R] [LawfulReplacer R] in
theorem sameFiles_decRefCount (pool : BufferPool R) (m : ℕ) (isWrite : Bool) :
    SameFiles pool (pool.decRefCount m isWrite) :=
  ⟨rfl, rfl, rfl, fun _ => rfl, rfl⟩

/-- A released pin changes no byte. -/
theorem Pools.decRefCount (pools : Pools K content mgr place pins)
    (member : (page, m) ∈ pins (mgr.poolOf page)) (isWrite : Bool) :
    Pools K content (mgr.decRefCount page m isWrite) place
      (update pins (mgr.poolOf page) ((pins (mgr.poolOf page)).erase (page, m))) := by
  have inside := mgr.poolOf_lt page
  have inv := pools.inv _ inside
  have after := pools.setPool inside (sameFiles_decRefCount _ m isWrite) (.refl _)
    (inv.decRefCount member isWrite) ((pools.coherent _ inside).decRefCount inv member isWrite)
    fun j bound _ => (pools.coherent j bound).withDisk (.refl _) fun _ => id
  rwa [update_eq_self] at after

theorem Sound.decRefCount (sound : Sound K content mgr place pins)
    (member : (page, m) ∈ pins (mgr.poolOf page)) (isWrite : Bool) :
    Sound K content (mgr.decRefCount page m isWrite) place
      (update pins (mgr.poolOf page) ((pins (mgr.poolOf page)).erase (page, m))) :=
  ⟨sound.toPools.decRefCount member isWrite, sound.settled⟩

omit [Replacer R] [LawfulReplacer R] in
theorem setFrame_decRefCount (mgr : BufferPoolManager R) (page : Page) (m : ℕ) (bytes : Bytes) :
    (mgr.setFrame page m bytes).decRefCount page m true = mgr.setPool (mgr.poolOf page)
      (((mgr.pool (mgr.poolOf page)).withBytes m bytes).decRefCount m true) := by
  simp only [BufferPoolManager.decRefCount, BufferPoolManager.setFrame, BufferPoolManager.setPool,
    BufferPoolManager.pool, BufferPoolManager.poolOf, update_self, update_idem]
  rfl

/-- A store to a pinned frame, released as a write, changes the bytes of its page. -/
theorem Sound.write (sound : Sound K content mgr place pins)
    (member : (page, m) ∈ pins (mgr.poolOf page))
    (here : place (mgr.poolOf page) m = .resident page) {bytes : Bytes}
    (elsewhere : ∀ fd i, ¬ page.Contains fd i → (K' fd i → K fd i) ∧ content' fd i = content fd i)
    (written : ∀ i < pageSize, K' page.fd (page.position i) →
      bytes i = content' page.fd (page.position i))
    (tail : mgr.disk.Tail K' content') :
    Sound K' content' ((mgr.setFrame page m bytes).decRefCount page m true) place
      (update pins (mgr.poolOf page) ((pins (mgr.poolOf page)).erase (page, m))) := by
  have inside := mgr.poolOf_lt page
  have inv := sound.inv _ inside
  rw [setFrame_decRefCount]
  have files : SameFiles (mgr.pool (mgr.poolOf page))
      (((mgr.pool (mgr.poolOf page)).withBytes m bytes).decRefCount m true) :=
    ⟨rfl, rfl, rfl, fun _ => rfl, rfl⟩
  have after := sound.setPool inside files (.refl _) ((inv.withBytes m bytes).decRefCount member true)
    (sound.settled _ inside)
    ((sound.coherent _ inside).overwrite inv member here elsewhere written tail)
    fun j bound apart => (sound.coherent j bound).elsewhere (sound.inv j bound) ?_ elsewhere tail
  · rwa [update_eq_self] at after
  · change (mgr.pools j).pageTable.partitioner.getPartitionId _ ≠ (mgr.pools j).poolId
    rw [sound.partitioner j bound, sound.poolId j bound]
    exact Ne.symm apart

/-- The end of a visit to a page: the pin that the fetch took is released. -/
theorem Sound.release (sound : Sound K content mgr place
      (update pins (mgr.poolOf page) ((page, m) :: pins (mgr.poolOf page)))) :
    Sound K content (mgr.decRefCount page m false) place pins := by
  have after := sound.decRefCount (show (page, m) ∈ _ by simp) false
  simpa using after

/-- The end of a visit that stored `bytes` to the page. -/
theorem Sound.store (sound : Sound K content mgr place
      (update pins (mgr.poolOf page) ((page, m) :: pins (mgr.poolOf page))))
    (here : place (mgr.poolOf page) m = .resident page) {bytes : Bytes}
    (elsewhere : ∀ fd i, ¬ page.Contains fd i → (K' fd i → K fd i) ∧ content' fd i = content fd i)
    (written : ∀ i < pageSize, K' page.fd (page.position i) →
      bytes i = content' page.fd (page.position i))
    (tail : mgr.disk.Tail K' content') :
    Sound K' content' ((mgr.setFrame page m bytes).decRefCount page m true) place pins := by
  have after := sound.write (by simp) here elsewhere written tail
  simpa using after

omit [Replacer R] [LawfulReplacer R] in
theorem SameShape.spare (same : SameShape mgr mgr') (spare : Spare mgr pins) : Spare mgr' pins := by
  intro i inside
  rw [same.partitioner] at inside
  rw [same.poolSize]
  exact spare i inside

end Gbp.BufferPoolManager
