import GraphBufferPool.Manager.CloseRuns

/-! # Who owns a frame

Between calls a frame is free, or a replacer tracks it and the mapping of its page names it. `FlushPage` with
deletion puts a frame into the free list that the replacer still tracks, and `Flush` with deletion clears the
replacers also of the frames whose pages are pinned. Without those two the frames stay partitioned.
-/

namespace Gbp

open Function LawfulReplacer DiskManager Fuel Machine

/-- The place of a frame after its page was deleted from memory, if it is one of `done`. -/
def BufferPool.Place.emptied (done : List Page) : BufferPool.Place → BufferPool.Place
  | .resident page => if page ∈ done then .free else .resident page
  | place => place

namespace BufferPool

namespace Place

variable {place : Place} {page : Page} {done : List Page}

theorem emptied_nil : place.emptied [] = place := by
  cases place <;> simp [emptied]

theorem emptied_concat : place.emptied (done ++ [page]) =
    if place.emptied done = .resident page then flushedPlace page true else place.emptied done := by
  cases place with
  | resident other =>
    unfold emptied flushedPlace
    grind
  | absent | free | stuck | orphan | loading => simp [emptied]

end Place

variable {R : Type} [Replacer R] [LawfulReplacer R] {pool : BufferPool R} {place : ℕ → Place}
  {pins : List (Page × ℕ)}

/-- A replacer may be cleared where no frame has a page. -/
theorem Inv.cleaned (inv : Inv pool place pins) (unused : ∀ m, (place m).page? = none) :
    Inv { pool with replacer := (Replacer.clean pool.replacer).2 } place pins := by
  obtain ⟨calm, frames, capacity⟩ := clean_ok pool.replacer inv.calm
  have same : SameFiles pool { pool with replacer := (Replacer.clean pool.replacer).2 } :=
    ⟨rfl, rfl, rfl, fun _ => rfl, rfl⟩
  exact { inv with
    capacity := capacity.trans inv.capacity
    calm := calm
    tracked := fun m page there => by rw [unused m] at there; cases there
    known := fun m member => by rw [frames] at member; cases member
    mapped := fun page mine => inv.mapped page (same.owns.mp mine)
    locked := fun page mine => inv.locked page (same.owns.mp mine)
    owned := fun k page there => same.owns.mpr (inv.owned k page there) }

end BufferPool

namespace BufferPoolManager

open BufferPool

variable {R : Type} [Replacer R]

/-- A call that takes pages out of memory. -/
inductive Deletion
  | page (page : Page)
  | all

/-- The call deletes no page, and clears no replacer that tracks a pinned frame. -/
def Harmless (s : Session R) : Deletion → Prop
  | .page page => ∀ m, s.mgr.mapping page = some (.frame m) → (s.mgr.entry page m).refCount ≠ 0
  | .all => ∀ i < s.mgr.partitioner.numPartitions, s.pins i = []

/-- What a program does that deletes pages from memory; `May` says when it may do so. -/
inductive DeletingStep (May : Session R → Deletion → Prop) : Session R → Session R → Prop
  | openFile {s : Session R} {fd : ℕ} {mgr' : BufferPoolManager R} (file : OsFile)
      (handle : s.mgr.disk.files.length < 2 ^ 13) (ran : s.mgr.openFile file = .ok (fd, mgr')) :
      DeletingStep May s ⟨mgr', opened s.content fd file.1, s.pins⟩
  | fetch {s : Session R} {page : Page} {m : ℕ} {mgr' : BufferPoolManager R} (inFile : InFile s.mgr page)
      (room : ∀ m, Room (s.pins (s.mgr.poolOf page)) m)
      (ran : Returns (fun fuel => s.mgr.fetchPageSync fuel page) (m, mgr')) :
      DeletingStep May s ⟨mgr', s.content,
        update s.pins (s.mgr.poolOf page) ((page, m) :: s.pins (s.mgr.poolOf page))⟩
  | pin {s : Session R} {page : Page} {result : Option ℕ} {pool' : BufferPool R} (inFile : InFile s.mgr page)
      (room : ∀ m, Room (s.pins (s.mgr.poolOf page)) m)
      (ran : (s.mgr.pool (s.mgr.poolOf page)).pin page = .ok (result, pool')) :
      DeletingStep May s ⟨s.mgr.setPool (s.mgr.poolOf page) pool', s.content,
        update s.pins (s.mgr.poolOf page) ((result.map (Prod.mk page)).toList ++ s.pins (s.mgr.poolOf page))⟩
  | release {s : Session R} {page : Page} {m : ℕ} (pin : (page, m) ∈ s.pins (s.mgr.poolOf page))
      (isWrite : Bool) :
      DeletingStep May s ⟨s.mgr.decRefCount page m isWrite, s.content,
        update s.pins (s.mgr.poolOf page) ((s.pins (s.mgr.poolOf page)).erase (page, m))⟩
  | write {s : Session R} {page : Page} {m : ℕ} (inFile : InFile s.mgr page)
      (pin : (page, m) ∈ s.pins (s.mgr.poolOf page)) (bytes : Bytes)
      (past : ∀ i < pageSize, s.mgr.disk.getFileSizeFast page.fd ≤ page.position i →
        bytes i = s.mgr.frame page m i) :
      DeletingStep May s ⟨(s.mgr.setFrame page m bytes).decRefCount page m true, stored s.content page bytes,
        update s.pins (s.mgr.poolOf page) ((s.pins (s.mgr.poolOf page)).erase (page, m))⟩
  | flushPage {s : Session R} {page : Page} {result : Bool} {mgr' : BufferPoolManager R} (inFile : InFile s.mgr page)
      (may : May s (.page page)) (ran : s.mgr.flushPage page.fpageId page.fd true = .ok (result, mgr')) :
      DeletingStep May s ⟨mgr', s.content, s.pins⟩
  | flush {s : Session R} {result : Bool} {mgr' : BufferPoolManager R}
      (small : ∀ fd, s.mgr.disk.getFileSizeFast fd ≤ maxFileSize) (may : May s .all)
      (ran : s.mgr.flush true = .ok (result, mgr')) :
      DeletingStep May s ⟨mgr', s.content, s.pins⟩

/-- The states of a program that deletes pages from memory. -/
abbrev DeletingRun (May : Session R → Deletion → Prop) (s : Session R) : Prop :=
  Reach SessionStart (DeletingStep May) s

variable [LawfulReplacer R]

/-- Frame `m` of pool `i` is in the free list, once; it is not tracked, and no mapping points to it. -/
structure FreeFrame (mgr : BufferPoolManager R) (i m : ℕ) : Prop where
  free : (mgr.pools i).freeList.count m = 1
  untracked : m ∉ frames (mgr.pools i).replacer
  unmapped : ∀ page, mgr.poolOf page = i → page.fpageId < fpageIdRange → mgr.mapping page ≠ some (.frame m)

/-- Frame `m` of pool `i` is tracked, once; it is not in the free list, and one mapping points to it, that of the
page in its entry. -/
structure UsedFrame (mgr : BufferPoolManager R) (i m : ℕ) : Prop where
  taken : m ∉ (mgr.pools i).freeList
  tracked : (frames (mgr.pools i).replacer).count m = 1
  inside : mgr.poolOf ((mgr.pools i).pageTable.ptes m).page = i ∧
    ((mgr.pools i).pageTable.ptes m).page.fpageId < fpageIdRange
  mapped : ∀ page, mgr.poolOf page = i → page.fpageId < fpageIdRange →
    (mgr.mapping page = some (.frame m) ↔ page = ((mgr.pools i).pageTable.ptes m).page)

/-- Every frame is in exactly one of the two conditions. -/
def Partitions (mgr : BufferPoolManager R) : Prop :=
  ∀ i < mgr.partitioner.numPartitions, ∀ m < mgr.poolSize, Xor (FreeFrame mgr i m) (UsedFrame mgr i m)

variable {mgr mgr' : BufferPoolManager R} {content : Content} {pins : ℕ → List (Page × ℕ)}
  {place : ℕ → ℕ → Place} {page : Page} {fd m : ℕ}

/-- What holds in every state of such a program: the files that were opened are open, and their handles fit the
entry. -/
structure Owners (content : Content) (mgr : BufferPoolManager R) (place : ℕ → ℕ → Place)
    (pins : ℕ → List (Page × ℕ)) : Prop extends Kept content mgr place pins where
  valid : ∀ fd < mgr.disk.files.length, mgr.disk.validFD fd = true
  handles : mgr.disk.files.length ≤ 2 ^ 13

/-- A mapping that names a frame is that of a page of the pool. -/
theorem Owners.owns (owners : Owners content mgr place pins) (bound : page.fpageId < fpageIdRange)
    (mapped : mgr.mapping page = some (.frame m)) : (mgr.pool (mgr.poolOf page)).Owns page := by
  have inside := mgr.poolOf_lt page
  have registered : (mgr.pools (mgr.poolOf page)).pageTable.word? page ≠ none := fun none =>
    Option.some_ne_none _ (mapped.symm.trans none)
  have opened : page.fd < mgr.disk.files.length := by
    rw [← owners.sound.length _ inside]
    refine Nat.lt_of_not_le fun past => registered ((PageTable.word?_eq_none_iff).mpr fun n there => ?_)
    cases (List.getElem?_eq_none past).symm.trans there
  refine ⟨?_, bound, opened.trans_le owners.handles, owners.valid _ opened, registered⟩
  change (mgr.pools _).pageTable.partitioner.getPartitionId _ = (mgr.pools _).poolId
  rw [owners.sound.partitioner _ inside, owners.sound.poolId _ inside]
  rfl

theorem Owners.mapped_iff (owners : Owners content mgr place pins) (bound : page.fpageId < fpageIdRange) :
    mgr.mapping page = some (.frame m) ↔ place (mgr.poolOf page) m = .resident page := by
  have inv := owners.sound.inv _ (mgr.poolOf_lt page)
  exact ⟨fun mapped => (inv.mapped page (owners.owns bound mapped) m).mp mapped, inv.word?_resident⟩

theorem Owners.freeFrame (owners : Owners content mgr place pins) {i : ℕ}
    (inside : i < mgr.partitioner.numPartitions) (here : place i m = .free) : FreeFrame mgr i m where
  free := List.count_eq_one_of_mem (owners.sound.inv i inside).freeNodup (((owners.sound.inv i inside).free m).mpr here)
  untracked := fun tracked => owners.strict i inside m tracked (by rw [here]; rfl)
  unmapped := by
    rintro page rfl bound mapped
    cases here.symm.trans ((owners.mapped_iff bound).mp mapped)

theorem Owners.usedFrame (owners : Owners content mgr place pins) {i : ℕ}
    (inside : i < mgr.partitioner.numPartitions) (here : place i m = .resident page) : UsedFrame mgr i m := by
  have inv := owners.sound.inv i inside
  have described : ((mgr.pools i).pageTable.ptes m).page = page := inv.described m page (by rw [here]; rfl)
  have tracked : m ∈ frames (mgr.pools i).replacer := inv.tracked m page (by rw [here]; rfl)
  refine ⟨fun free => ?_, List.count_eq_one_of_mem (nodup _ inv.calm) tracked, ?_, ?_⟩
  · cases here.symm.trans ((inv.free m).mp free)
  · rw [described]
    exact ⟨owners.sound.poolOf_eq inside here, (inv.owned m page (Or.inl here)).fpageId⟩
  · rintro other rfl bound
    rw [owners.mapped_iff bound, here, described]
    exact ⟨fun same => (Place.resident.inj same).symm, fun same => congrArg Place.resident same.symm⟩

theorem Owners.partitions (owners : Owners content mgr place pins) : Partitions mgr := by
  intro i inside m bound
  have present : place i m ≠ .absent := fun absent => by
    have past : (mgr.pools i).poolSize ≤ m := ((owners.sound.inv i inside).absent m).mp absent
    rw [owners.sound.poolSize i inside] at past
    omega
  rcases owners.quiet i inside m with here | here | ⟨page, here⟩
  · exact absurd here present
  · have free := owners.freeFrame inside here
    exact Or.inl ⟨free, fun used => used.taken (List.count_pos_iff.mp (free.free ▸ Nat.one_pos))⟩
  · have used := owners.usedFrame inside here
    exact Or.inr ⟨used, fun free => used.taken (List.count_pos_iff.mp (free.free ▸ Nat.one_pos))⟩

/-- The handles and the open files are as before. -/
theorem Owners.congr {content' : Content} {place' : ℕ → ℕ → Place} {pins' : ℕ → List (Page × ℕ)}
    (owners : Owners content mgr place pins) (kept : Kept content' mgr' place' pins')
    (same : SameHandles mgr.disk mgr'.disk) : Owners content' mgr' place' pins' where
  toKept := kept
  valid := fun fd below => (same.valid fd).trans (owners.valid fd (same.length ▸ below))
  handles := same.length ▸ owners.handles

theorem SessionStart.owners {s : Session R} (start : SessionStart s) :
    ∃ place, Owners s.content s.mgr place s.pins := by
  obtain ⟨place, kept⟩ := start.kept
  cases start with
  | init part poolSize memory file =>
    refine ⟨place, kept, fun fd below => ?_, (by decide : 1 ≤ 2 ^ 13)⟩
    obtain rfl : fd = 0 := Nat.lt_one_iff.mp below
    rfl

theorem Owners.openFile (owners : Owners content mgr place pins) {file : OsFile} (opens : Opens mgr file mgr')
    (handle : mgr.disk.files.length < 2 ^ 13) :
    Owners (opened content mgr.disk.files.length file.1) mgr' place pins where
  toKept := owners.toKept.openFile opens
  valid := by
    rw [opens.disk, openFile_length]
    intro fd below
    rw [openFile_validFD]
    split_ifs with new
    · rfl
    · exact owners.valid fd (by omega)
  handles := by
    rw [opens.disk, openFile_length]
    exact handle

/-- A call that leaves the pool of the page as it is. -/
theorem Kept.setPool_self (kept : Kept content mgr place pins) (page : Page) :
    Kept content (mgr.setPool (mgr.poolOf page) (mgr.pool (mgr.poolOf page))) place pins := by
  have inside := mgr.poolOf_lt page
  have sound' := kept.sound.setPool inside (.refl _) (.refl _) (kept.sound.inv _ inside)
    (kept.sound.settled _ inside) (kept.sound.coherent _ inside)
    fun j bound _ => (kept.sound.coherent j bound).withDisk (.refl _) fun _ => id
  rw [update_eq_self, update_eq_self] at sound'
  refine ⟨kept.toWatches.transport sound' rfl rfl fun i => ?_, kept.quiet⟩
  change (update mgr.pools _ _ i).replacer = _
  by_cases same : i = mgr.poolOf page
  · rw [same, update_self]
    rfl
  · rw [update_of_ne same]

/-- A pin that succeeds is a fetch; one that does not leaves the pool as it is. -/
theorem Kept.pin (kept : Kept content mgr place pins) (inFile : InFile mgr page)
    (room : ∀ m, Room (pins (mgr.poolOf page)) m) {result : Option ℕ} {pool' : BufferPool R}
    (ran : (mgr.pool (mgr.poolOf page)).pin page = .ok (result, pool')) :
    ∃ place', Kept content (mgr.setPool (mgr.poolOf page) pool') place'
      (update pins (mgr.poolOf page) ((result.map (Prod.mk page)).toList ++ pins (mgr.poolOf page))) ∧
      SameHandles mgr.disk pool'.disk := by
  have inside := mgr.poolOf_lt page
  have inv := kept.sound.inv _ inside
  rcases inv.word?_cases (kept.sound.owns inFile) with ⟨m, here⟩ | ⟨m, locks⟩ | empty
  · obtain ⟨r, _, pinned, _⟩ := inv.exists_pin here
    cases pinned.symm.trans ran
    have returned : Returns (fun fuel => BufferPool.fetchPageSync fuel page (mgr.pool (mgr.poolOf page)))
        (m, (mgr.pool (mgr.poolOf page)).withPin m r) := by
      refine ⟨0, fun fuel _ => ?_⟩
      simp only [BufferPool.fetchPageSync, pinned, ok_bind]
      rfl
    obtain ⟨place', kept'⟩ := kept.fetch inFile room (mgr.fetchPageSync_pool page returned)
    exact ⟨place', kept', .refl _⟩
  · exact absurd locks ((kept.quiet _ inside).not_locks m page)
  · cases (pin_empty empty).symm.trans ran
    refine ⟨place, ?_, .refl _⟩
    rw [Option.map_none, Option.toList_none, List.nil_append, update_eq_self]
    exact kept.setPool_self page

/-- A `FlushPage` with deletion of a page that is not in memory, or that someone holds, leaves the pool as it is. -/
theorem Kept.flushPage_harmless (kept : Kept content mgr place pins) (inFile : InFile mgr page)
    (harmless : Harmless ⟨mgr, content, pins⟩ (.page page)) :
    ∃ result, mgr.flushPage page.fpageId page.fd true =
      .ok (result, mgr.setPool (mgr.poolOf page) (mgr.pool (mgr.poolOf page))) := by
  have inside := mgr.poolOf_lt page
  have narrow : page.fpageId % fpageIdRange = page.fpageId := Nat.mod_eq_of_lt inFile.fpageId_lt
  have inv := kept.sound.inv _ inside
  rcases inv.word?_cases (kept.sound.owns inFile) with ⟨m, here⟩ | ⟨m, locks⟩ | empty
  · have word := inv.word?_resident here
    have held : ((mgr.pool (mgr.poolOf page)).pageTable.ptes m).refCount ≠ 0 := harmless m word
    have refused : ((mgr.pool (mgr.poolOf page)).pageTable.ptes m).lock? = none := by
      simp [PTE.lock?, held, (inv.settled m page here).2]
    refine ⟨false, ?_⟩
    rw [BufferPoolManager.flushPage, narrow]
    simp only [flushPage_refused word refused, ok_bind]
    rfl
  · exact absurd locks ((kept.quiet _ inside).not_locks m page)
  · refine ⟨true, ?_⟩
    rw [BufferPoolManager.flushPage, narrow]
    simp only [flushPage_empty empty, ok_bind]
    rfl

/-- A `FlushPage` with deletion of any other page frees a frame that is still tracked. -/
theorem Kept.flushPage_tracked (kept : Kept content mgr place pins) (inFile : InFile mgr page)
    (mapped : mgr.mapping page = some (.frame m)) (unpinned : (mgr.entry page m).refCount = 0) :
    ∃ mgr', mgr.flushPage page.fpageId page.fd true = .ok (true, mgr') ∧ ¬ Partitions mgr' := by
  have inside := mgr.poolOf_lt page
  have narrow : page.fpageId % fpageIdRange = page.fpageId := Nat.mod_eq_of_lt inFile.fpageId_lt
  have inv := kept.sound.inv _ inside
  have here := (inv.mapped page (kept.sound.owns inFile) m).mp mapped
  have tracked : m ∈ frames (mgr.pools (mgr.poolOf page)).replacer := inv.tracked m page (by rw [here]; rfl)
  have bound : m < mgr.poolSize := by
    rw [← kept.sound.poolSize _ inside]
    exact inv.known m tracked
  obtain ⟨pool', ran, flushed⟩ := inv.flushPage here unpinned true
  refine ⟨mgr.setPool (mgr.poolOf page) pool', ?_, fun partitions => ?_⟩
  · rw [BufferPoolManager.flushPage, narrow]
    simp only [ran, ok_bind]
    rfl
  · have self : (mgr.setPool (mgr.poolOf page) pool').pools (mgr.poolOf page) = pool' := update_self ..
    have freed : m ∈ pool'.freeList := by
      rw [flushed.freeList, if_pos rfl]
      exact List.mem_append_right _ List.mem_cons_self
    rcases partitions _ inside m bound with ⟨free, _⟩ | ⟨used, _⟩
    · refine free.untracked ?_
      rw [self, flushed.replacer]
      exact tracked
    · refine used.taken ?_
      rw [self]
      exact freed

/-- What the deletion of the pages `done` has done. -/
structure Emptied (content : Content) (mgr : BufferPoolManager R) (place : ℕ → ℕ → Place)
    (pins : ℕ → List (Page × ℕ)) (done : List Page) (mgr' : BufferPoolManager R) : Prop where
  sound : Sound (fun _ _ => True) content mgr' (fun i m => (place i m).emptied done) pins
  shape : SameShape mgr mgr'
  exact : mgr.disk.Exact → mgr'.disk.Exact

variable {done : List Page}

/-- The deletion of the next page. -/
theorem Emptied.step (emptied : Emptied content mgr place pins done mgr') (quiet : AllQuiet mgr place)
    (unpinned : ∀ i < mgr.partitioner.numPartitions, pins i = []) (inFile : InFile mgr page) :
    ∃ mgr'', mgr'.flushPage page.fpageId page.fd true = .ok (true, mgr'') ∧
      Emptied content mgr place pins (done ++ [page]) mgr'' := by
  obtain ⟨sound, shape, exact⟩ := emptied
  have inside : mgr'.poolOf page < mgr.partitioner.numPartitions := shape.partitioner ▸ mgr'.poolOf_lt page
  have unlocked (m : ℕ) : ¬ ((place (mgr'.poolOf page) m).emptied done).Locks page := by
    rcases quiet _ inside m with here | here | ⟨other, here⟩
    · simp [here, Place.emptied, Place.Locks]
    · simp [here, Place.emptied, Place.Locks]
    · rw [here, Place.emptied]
      split_ifs <;> simp
  obtain ⟨mgr'', ran, sound', shape', exact'⟩ := sound.flushUnheld (shape.inFile inFile)
    (by simp [unpinned _ inside]) unlocked true
  exact ⟨mgr'', ran, sound'.congr_place fun i _ => funext fun m => Place.emptied_concat, shape.trans shape',
    fun before fd => exact' fd (exact before fd)⟩

/-- The pages of a file that `FlushFile` visits. -/
def filePages (mgr : BufferPoolManager R) (fd : ℕ) : List Page := (List.range (mgr.fpageNum fd)).map (Page.mk fd)

theorem Emptied.file (emptied : Emptied content mgr place pins done mgr') (quiet : AllQuiet mgr place)
    (unpinned : ∀ i < mgr.partitioner.numPartitions, pins i = []) (range : InRange mgr fd 0 0) :
    ∃ mgr'', mgr'.flushFile fd true = .ok (true, mgr'') ∧
      Emptied content mgr place pins (done ++ mgr.filePages fd) mgr'' := by
  have visit (ids : List ℕ) (below : ∀ k ∈ ids, k < mgr.fpageNum fd) {done : List Page} {mgr' : BufferPoolManager R}
      (emptied : Emptied content mgr place pins done mgr') : ∃ mgr'',
      ids.foldlM (fun state fpageId => state.2.flushPage fpageId fd true) (true, mgr') = .ok (true, mgr'') ∧
        Emptied content mgr place pins (done ++ ids.map (Page.mk fd)) mgr'' := by
    induction ids generalizing done mgr' with
    | nil => exact ⟨mgr', rfl, by rwa [List.map_nil, List.append_nil]⟩
    | cons k ids ih =>
      obtain ⟨mid, ran, next⟩ := emptied.step quiet unpinned (range.inFile (below k List.mem_cons_self))
      obtain ⟨mgr'', rest, after⟩ := ih (fun k member => below k (List.mem_cons_of_mem _ member)) next
      refine ⟨mgr'', ?_, ?_⟩
      · simp only [List.foldlM_cons, ran, ok_bind, rest]
      · rwa [List.append_assoc, List.singleton_append] at after
  obtain ⟨mgr'', ran, after⟩ := visit (List.range (mgr.fpageNum fd)) (fun k => List.mem_range.mp) emptied
  refine ⟨mgr'', ?_, after⟩
  rw [flushFile, if_pos ((emptied.shape.handles.valid fd).trans range.valid), emptied.shape.handles.size]
  exact ran

/-- The replacers may be cleared where no page is in memory. -/
theorem Sound.cleaned (sound : Sound (fun _ _ => True) content mgr place pins)
    (unused : ∀ i < mgr.partitioner.numPartitions, ∀ m, (place i m).page? = none)
    (partitioner : mgr'.partitioner = mgr.partitioner) (poolSize : mgr'.poolSize = mgr.poolSize)
    (disk : mgr'.disk = mgr.disk) (pools : ∀ i < mgr.partitioner.numPartitions,
      mgr'.pool i = { mgr.pool i with replacer := (Replacer.clean (mgr.pools i).replacer).2 }) :
    Sound (fun _ _ => True) content mgr' place pins := by
  have field {α : Type} (get : BufferPool R → α) {i : ℕ} (inside : i < mgr.partitioner.numPartitions) :
      get (mgr'.pool i) = get { mgr.pool i with replacer := (Replacer.clean (mgr.pools i).replacer).2 } :=
    congrArg get (pools i inside)
  exact {
    partitioner := by
      rw [partitioner]
      exact fun i inside => (field (fun pool => pool.pageTable.partitioner) inside).trans (sound.partitioner i inside)
    length := by
      rw [partitioner, disk]
      exact fun i inside => (field (fun pool => pool.pageTable.shape.length) inside).trans (sound.length i inside)
    slots := by
      rw [partitioner, disk]
      intro i inside fd valid
      obtain ⟨n, here, reaches⟩ := sound.slots i inside fd valid
      exact ⟨n, (field (fun pool => pool.pageTable.shape[fd]?) inside).trans here, reaches⟩
    poolId := by
      rw [partitioner]
      exact fun i inside => (field BufferPool.poolId inside).trans (sound.poolId i inside)
    poolSize := by
      rw [partitioner, poolSize]
      exact fun i inside => (field BufferPool.poolSize inside).trans (sound.poolSize i inside)
    inv := by
      rw [partitioner]
      intro i inside
      rw [pools i inside]
      exact (sound.inv i inside).cleaned (unused i inside)
    coherent := by
      rw [partitioner]
      intro i inside
      rw [pools i inside]
      obtain ⟨tail, frame, clean, away⟩ := sound.coherent i inside
      exact ⟨tail, frame, clean, away⟩
    settled := by
      rw [partitioner]
      exact sound.settled }

/-- `Flush` with deletion where no page is pinned: no page is in memory any more. -/
theorem Owners.flush (owners : Owners content mgr place pins) (small : ∀ fd, mgr.disk.getFileSizeFast fd ≤ maxFileSize)
    (unpinned : ∀ i < mgr.partitioner.numPartitions, pins i = []) :
    ∃ mgr', mgr.flush true = .ok (true, mgr') ∧ ∃ place', Owners content mgr' place' pins := by
  have range (fd : ℕ) (below : fd < mgr.disk.files.length) : InRange mgr fd 0 0 :=
    ⟨below.trans_le owners.handles, owners.valid fd below, small fd, Nat.zero_le _⟩
  have visit (fds : List ℕ) (below : ∀ fd ∈ fds, fd < mgr.disk.files.length) {done : List Page}
      {mgr' : BufferPoolManager R} (emptied : Emptied content mgr place pins done mgr') : ∃ mgr'',
      fds.foldlM (fun mgr fd =>
        if mgr.disk.validFD fd then
          mgr.flushFile fd true >>= fun flushed => check flushed.1 >>= fun _ => .ok flushed.2
        else .ok mgr) mgr' = .ok mgr'' ∧
        Emptied content mgr place pins (done ++ fds.flatMap mgr.filePages) mgr'' := by
    induction fds generalizing done mgr' with
    | nil => exact ⟨mgr', rfl, by rwa [List.flatMap_nil, List.append_nil]⟩
    | cons fd fds ih =>
      have first := range fd (below fd List.mem_cons_self)
      obtain ⟨mid, ran, next⟩ := emptied.file owners.quiet unpinned first
      obtain ⟨mgr'', rest, after⟩ := ih (fun fd member => below fd (List.mem_cons_of_mem _ member)) next
      refine ⟨mgr'', ?_, ?_⟩
      · rw [List.foldlM_cons, if_pos ((emptied.shape.handles.valid fd).trans first.valid)]
        simp only [ran, ok_bind, check_true]
        exact rest
      · rwa [List.append_assoc, ← List.flatMap_cons] at after
  have start : Emptied content mgr place pins [] mgr :=
    ⟨by simpa only [Place.emptied_nil] using owners.sound, .refl _, id⟩
  obtain ⟨mid, flushed, emptied⟩ := visit (List.range mgr.disk.files.length) (fun fd => List.mem_range.mp) start
  obtain ⟨sound, shape, exact⟩ := emptied
  -- every page that was in memory is one of those visited
  have away (i : ℕ) (inside : i < mgr.partitioner.numPartitions) (m : ℕ) :
      (place i m).emptied ([] ++ (List.range mgr.disk.files.length).flatMap mgr.filePages) = .absent ∨
        (place i m).emptied ([] ++ (List.range mgr.disk.files.length).flatMap mgr.filePages) = .free := by
    rcases owners.quiet i inside m with here | here | ⟨page, here⟩
    · exact Or.inl (by rw [here]; rfl)
    · exact Or.inr (by rw [here]; rfl)
    · have opened := lt_of_validFD ((owners.sound.inv i inside).owned m page (Or.inl here)).valid
      have counted : page.fpageId < mgr.fpageNum page.fd :=
        (lt_ceil_iff (by decide)).mpr (owners.home i inside m page here trivial)
      have visited : page ∈ [] ++ (List.range mgr.disk.files.length).flatMap mgr.filePages := by
        simp only [List.nil_append, List.mem_flatMap, List.mem_range, filePages, List.mem_map]
        exact ⟨page.fd, opened, page.fpageId, counted, rfl⟩
      exact Or.inr (by rw [here, Place.emptied, if_pos visited])
  have unused (i : ℕ) (inside : i < mid.partitioner.numPartitions) (m : ℕ) : ((place i m).emptied
      ([] ++ (List.range mgr.disk.files.length).flatMap mgr.filePages)).page? = none := by
    rcases away i (shape.partitioner ▸ inside) m with there | there <;> rw [there] <;> rfl
  obtain ⟨mgr', ran, partitioner, poolSize, disk, pools⟩ := eachPool_ok mid
    (f := fun pool => .ok { pool with replacer := (Replacer.clean pool.replacer).2 })
    (g := fun i => { mid.pool i with replacer := (Replacer.clean (mid.pools i).replacer).2 })
    (fun i _ => rfl) (fun i _ => rfl)
  have cleared (i : ℕ) (inside : i < mid.partitioner.numPartitions) :
      mgr'.pool i = { mid.pool i with replacer := (Replacer.clean (mid.pools i).replacer).2 } := by
    rw [BufferPoolManager.pool, pools i inside, disk]
    rfl
  have sound' := sound.cleaned unused partitioner poolSize disk cleared
  have quiet : AllQuiet mgr' fun i m =>
      (place i m).emptied ([] ++ (List.range mgr.disk.files.length).flatMap mgr.filePages) := by
    intro i inside m
    rw [partitioner, shape.partitioner] at inside
    exact (away i inside m).imp id Or.inl
  refine ⟨mgr', ?_, _, owners.congr ⟨⟨sound', fun i inside m tracked => ?_, fun i inside m page =>
    (quiet i inside).not_locks m page, fun _ _ _ => trivial, ?_, fun i inside m page there => ?_⟩, quiet⟩ ?_⟩
  · refine bind_eq_ok.mpr ⟨mid, flushed, ?_⟩
    simp only [if_true, ran]
    rfl
  · rw [partitioner] at inside
    rw [cleared i inside] at tracked
    change m ∈ frames (Replacer.clean (mid.pool i).replacer).2 at tracked
    rw [(clean_ok _ (sound.inv i inside).calm).2.1] at tracked
    cases tracked
  · rw [disk]
    exact fun fd _ => exact (fun fd => owners.exact fd trivial) fd
  · rw [partitioner, shape.partitioner] at inside
    rcases away i inside m with here | here <;> cases there.symm.trans here
  · rw [disk]
    exact shape.handles

/-- `Flush` with deletion where some page is pinned: if it returns, no replacer tracks the frame of that page. -/
theorem Owners.flush_pinned (owners : Owners content mgr place pins)
    (small : ∀ fd, mgr.disk.getFileSizeFast fd ≤ maxFileSize) {i : ℕ} (inside : i < mgr.partitioner.numPartitions)
    (pin : (page, m) ∈ pins i) {result : Bool} (ran : mgr.flush true = .ok (result, mgr')) : ¬ Partitions mgr' := by
  have visit (fds : List ℕ) (below : ∀ fd ∈ fds, fd < mgr.disk.files.length) {before mid : BufferPoolManager R}
      (shape : SameShape mgr before) (sound : ∃ place', Sound (fun _ _ => True) content before place' pins)
      (ran : fds.foldlM (fun mgr fd =>
        if mgr.disk.validFD fd then
          mgr.flushFile fd true >>= fun flushed => check flushed.1 >>= fun _ => .ok flushed.2
        else .ok mgr) before = .ok mid) :
      SameShape mgr mid ∧ ∃ place', Sound (fun _ _ => True) content mid place' pins := by
    induction fds generalizing before with
    | nil =>
      cases ran
      exact ⟨shape, sound⟩
    | cons fd fds ih =>
      obtain ⟨place', sound⟩ := sound
      have opened := below fd List.mem_cons_self
      have range : InRange before fd 0 0 := shape.inRange
        ⟨opened.trans_le owners.handles, owners.valid fd opened, small fd, Nat.zero_le _⟩
      obtain ⟨results, next, visited, flushed⟩ := sound.flushPages range true le_rfl
      rw [List.foldlM_cons, if_pos range.valid, flushFile_eq range.valid, visited] at ran
      obtain ⟨_, first, rest⟩ := bind_eq_ok.mp ran
      obtain ⟨⟨_, _⟩, same, first⟩ := bind_eq_ok.mp first
      cases same
      obtain ⟨_, _, first⟩ := bind_eq_ok.mp first
      cases first
      exact ih (fun fd member => below fd (List.mem_cons_of_mem _ member)) (shape.trans flushed.shape)
        flushed.sound rest
  obtain ⟨mid, flushed, ran⟩ := bind_eq_ok.mp ran
  obtain ⟨shape, place', sound⟩ := visit _ (fun fd => List.mem_range.mp) (.refl _) ⟨place, owners.sound⟩ flushed
  obtain ⟨mgr'', cleared, partitioner, poolSize, _, pools⟩ := eachPool_ok mid
    (f := fun pool => .ok { pool with replacer := (Replacer.clean pool.replacer).2 })
    (g := fun i => { mid.pool i with replacer := (Replacer.clean (mid.pools i).replacer).2 })
    (fun i _ => rfl) (fun i _ => rfl)
  simp only [if_true, cleared, ok_bind] at ran
  cases ran
  intro partitions
  have inside' : i < mid.partitioner.numPartitions := shape.partitioner ▸ inside
  have inv := sound.inv i inside'
  have used := inv.pinned page m pin
  have tracked : m ∈ frames (mid.pools i).replacer := inv.tracked m page (by rcases used with h | h <;> rw [h] <;> rfl)
  have bound : m < mgr'.poolSize := by
    rw [poolSize, ← sound.poolSize i inside']
    exact inv.known m tracked
  rcases partitions i (partitioner ▸ inside') m bound with ⟨free, _⟩ | ⟨busy, _⟩
  · have member : m ∈ (mid.pools i).freeList := by
      have once := free.free
      rw [pools i inside'] at once
      exact List.count_pos_iff.mp (once ▸ Nat.one_pos)
    have here := (inv.free m).mp member
    rcases used with there | there <;> cases here.symm.trans there
  · have once := busy.tracked
    rw [pools i inside'] at once
    change (frames (Replacer.clean (mid.pool i).replacer).2).count m = 1 at once
    rw [(clean_ok _ inv.calm).2.1] at once
    cases once

theorem DeletingStep.owners {s s' : Session R} (owners : ∃ place, Owners s.content s.mgr place s.pins)
    (step : DeletingStep Harmless s s') : ∃ place, Owners s'.content s'.mgr place s'.pins := by
  obtain ⟨place, owners⟩ := owners
  cases step with
  | openFile file handle ran =>
    obtain ⟨_, returned, opens⟩ := exists_openFile _ file
    cases returned.symm.trans ran
    exact ⟨place, owners.openFile opens handle⟩
  | fetch inFile room ran =>
    obtain ⟨_, _, _, shape, _⟩ := owners.sound.fetched inFile room ran
    obtain ⟨place', kept⟩ := owners.toKept.fetch inFile room ran
    exact ⟨place', owners.congr kept shape.handles⟩
  | pin inFile room ran =>
    obtain ⟨place', kept, handles⟩ := owners.toKept.pin inFile room ran
    exact ⟨place', owners.congr kept handles⟩
  | release pin isWrite => exact ⟨place, owners.congr ⟨owners.toWatches.release pin isWrite, owners.quiet⟩ (.refl _)⟩
  | write inFile pin bytes past =>
    exact ⟨place, owners.congr ⟨owners.toWatches.write inFile pin past, owners.quiet⟩ (.refl _)⟩
  | flushPage inFile harmless ran =>
    obtain ⟨_, returned⟩ := owners.toKept.flushPage_harmless inFile harmless
    cases returned.symm.trans ran
    exact ⟨place, owners.congr (owners.toKept.setPool_self _) (.refl _)⟩
  | flush small unpinned ran =>
    obtain ⟨_, returned, after⟩ := owners.flush small unpinned
    cases returned.symm.trans ran
    exact after

theorem DeletingRun.owners {s : Session R} (run : DeletingRun Harmless s) :
    ∃ place, Owners s.content s.mgr place s.pins :=
  run.invariant (fun _ start => start.owners) fun _ _ before step => step.owners before

/-- In every run whose deletions are harmless the frames stay partitioned. No other deletion keeps them so. -/
theorem frames_partitioned_iff {s : Session R} (run : DeletingRun Harmless s) : Partitions s.mgr ∧
    (∀ page, InFile s.mgr page → ∃ result mgr', s.mgr.flushPage page.fpageId page.fd true = .ok (result, mgr') ∧
      (Partitions mgr' ↔ Harmless s (.page page))) ∧
    ((∀ fd, s.mgr.disk.getFileSizeFast fd ≤ maxFileSize) → ∀ result mgr', s.mgr.flush true = .ok (result, mgr') →
      (Partitions mgr' ↔ Harmless s .all)) := by
  obtain ⟨place, owners⟩ := run.owners
  refine ⟨owners.partitions, fun page inFile => ?_, fun small result mgr' ran => ⟨fun partitions i inside => ?_,
    fun unpinned => ?_⟩⟩
  · by_cases harmless : Harmless s (.page page)
    · obtain ⟨result, ran⟩ := owners.toKept.flushPage_harmless inFile harmless
      have same := owners.congr (owners.toKept.setPool_self page) (.refl _)
      exact ⟨result, _, ran, iff_of_true same.partitions harmless⟩
    · obtain ⟨m, mapped, unpinned⟩ : ∃ m, s.mgr.mapping page = some (.frame m) ∧ (s.mgr.entry page m).refCount = 0 := by
        simpa [Harmless] using harmless
      obtain ⟨mgr', ran, broken⟩ := owners.toKept.flushPage_tracked inFile mapped unpinned
      exact ⟨true, mgr', ran, iff_of_false broken harmless⟩
  · refine List.eq_nil_iff_forall_not_mem.mpr ?_
    rintro ⟨page, m⟩ pin
    exact owners.flush_pinned small inside pin ran partitions
  · obtain ⟨_, returned, _, after⟩ := owners.flush small unpinned
    cases returned.symm.trans ran
    exact after.partitions

/-- A page is pinned in a frame, and then released: only in the second state its deletion breaks the partition. -/
theorem frames_partitioned_fetchedPage : ∃ pinned released : Session SieveReplacer_v3,
    (pinned.mgr.mapping ⟨0, 0⟩ = some (.frame 0) ∧ (pinned.mgr.entry ⟨0, 0⟩ 0).refCount = 1 ∧ Partitions pinned.mgr ∧
      ∃ result mgr', pinned.mgr.flushPage 0 0 true = .ok (result, mgr') ∧ Partitions mgr') ∧
    released.mgr.mapping ⟨0, 0⟩ = some (.frame 0) ∧ (released.mgr.entry ⟨0, 0⟩ 0).refCount = 0 ∧
      Partitions released.mgr ∧
      ∃ result mgr', released.mgr.flushPage 0 0 true = .ok (result, mgr') ∧ ¬ Partitions mgr' := by
  obtain ⟨mgr, fetched, shape, pin, mapped, unpinned⟩ := exists_fetched
  obtain ⟨held, pinned⟩ := fetched_pinned fetched
  have inFile : InFile twoZeroPages.mgr ⟨0, 0⟩ := ⟨by decide, rfl, by decide, by decide⟩
  have room (m : ℕ) : Room (twoZeroPages.pins (twoZeroPages.mgr.poolOf ⟨0, 0⟩)) m := by simp [Room, twoZeroPages]
  have start : DeletingRun Harmless twoZeroPages := .init (.init _ _ _ _)
  have fetching := start.step (.fetch inFile room fetched)
  have releasing := fetching.step (.release pin false)
  obtain ⟨parted, deletes, _⟩ := frames_partitioned_iff fetching
  obtain ⟨parted', deletes', _⟩ := frames_partitioned_iff releasing
  have inFile' := shape.inFile inFile
  obtain ⟨result, mgr₁, ran, keeps⟩ := deletes ⟨0, 0⟩ ⟨inFile'.1, inFile'.2, inFile'.3, inFile'.4⟩
  obtain ⟨result', mgr₂, ran', breaks⟩ := deletes' ⟨0, 0⟩ inFile'
  refine ⟨_, _, ⟨held, pinned, parted, result, mgr₁, ran, keeps.mpr fun m here => ?_⟩, mapped, unpinned, parted',
    result', mgr₂, ran', fun kept => breaks.mp kept 0 mapped unpinned⟩
  obtain rfl : 0 = m := MapWord.frame.inj (Option.some.inj (held.symm.trans here))
  change (mgr.entry ⟨0, 0⟩ 0).refCount ≠ 0
  rw [pinned]
  exact Nat.one_ne_zero

/-- A page is fetched, released and deleted from memory: its frame is free, and still tracked. -/
theorem freed_frame_tracked :
    ¬ ∀ s : Session SieveReplacer_v3, DeletingRun (fun _ _ => True) s → Partitions s.mgr := by
  intro claimed
  obtain ⟨mgr, fetched, shape, pin, mapped, unpinned⟩ := exists_fetched
  have inFile : InFile twoZeroPages.mgr ⟨0, 0⟩ := ⟨by decide, rfl, by decide, by decide⟩
  have room (m : ℕ) : Room (twoZeroPages.pins (twoZeroPages.mgr.poolOf ⟨0, 0⟩)) m := by simp [Room, twoZeroPages]
  have start (May : Session SieveReplacer_v3 → Deletion → Prop) : DeletingRun May twoZeroPages := .init (.init _ _ _ _)
  have run (May : Session SieveReplacer_v3 → Deletion → Prop) : DeletingRun May _ :=
    ((start May).step (.fetch inFile room fetched)).step (.release pin false)
  obtain ⟨place, owners⟩ := (run Harmless).owners
  obtain ⟨mgr', ran, broken⟩ := owners.toKept.flushPage_tracked (shape.inFile inFile) mapped unpinned
  exact broken (claimed _ ((run _).step (.flushPage (shape.inFile inFile) trivial ran)))

end BufferPoolManager

end Gbp
