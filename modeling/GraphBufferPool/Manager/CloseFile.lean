import GraphBufferPool.Manager.FlushFile
import GraphBufferPool.Manager.Lengths
import GraphBufferPool.Pool.Close

/-! # `CloseFile`

Closing a file writes its dirty pages back and drops its mappings. If no one holds a page of the file it
returns, the file has the bytes on disk that were written through the pools, and every frame that held
one of its pages is an orphan.
-/

namespace Gbp

/-- The place of a frame after the flush of the first `n` pages of a file. -/
def BufferPool.Place.saved (fd n : ℕ) : BufferPool.Place → BufferPool.Place
  | .resident page => if page.fd = fd ∧ page.fpageId < n then .stuck page else .resident page
  | place => place

namespace BufferPool.Place

variable {fd n : ℕ} {place : Place} {page : Page}

theorem saved_zero : place.saved fd 0 = place := by
  cases place <;> simp [saved]

/-- The flush of the next page leaves its frame locked. -/
theorem saved_succ : place.saved fd (n + 1) =
    if place.saved fd n = .resident ⟨fd, n⟩ then flushedPlace ⟨fd, n⟩ false else place.saved fd n := by
  cases place with
  | resident page =>
    obtain ⟨other, k⟩ := page
    unfold saved flushedPlace
    grind
  | absent | free | stuck | orphan | loading => simp [saved]

theorem saved_eq_resident : place.saved fd n = .resident page ↔
    place = .resident page ∧ ¬ (page.fd = fd ∧ page.fpageId < n) := by
  unfold saved
  grind

theorem saved_locks : (place.saved fd n).Locks page →
    place.Locks page ∨ page.fd = fd ∧ page.fpageId < n := by
  unfold saved Locks
  grind

/-- A page of the file is an orphan after the close, flushed or not. -/
theorem closed_saved : (place.saved fd n).closed fd = place.closed fd := by
  unfold saved closed
  grind

end BufferPool.Place

namespace BufferPoolManager

open Function LawfulReplacer BufferPool DiskManager

variable {R : Type} [Replacer R] [LawfulReplacer R] {K : ℕ → ℕ → Prop} {content : Content}
  {mgr mgr' : BufferPoolManager R} {place place' : ℕ → ℕ → Place} {pins : ℕ → List (Page × ℕ)} {fd k : ℕ}

/-- The invariant reads the places of the pools there are. -/
theorem Sound.congr_place (sound : Sound K content mgr place pins)
    (same : ∀ i < mgr.partitioner.numPartitions, place' i = place i) : Sound K content mgr place' pins where
  toCovers := sound.toCovers
  poolId := sound.poolId
  poolSize := sound.poolSize
  inv := fun i inside => by rw [same i inside]; exact sound.inv i inside
  coherent := fun i inside => by rw [same i inside]; exact sound.coherent i inside
  settled := fun i inside => by rw [same i inside]; exact sound.settled i inside

/-- No one holds a page of the file. -/
def Unheld (pins : ℕ → List (Page × ℕ)) (fd : ℕ) : Prop := ∀ i, ∀ pin ∈ pins i, pin.1.fd ≠ fd

/-- What the flush of the first `k` pages of a file has done. -/
structure Saved (K : ℕ → ℕ → Prop) (content : Content) (mgr : BufferPoolManager R)
    (place : ℕ → ℕ → Place) (pins : ℕ → List (Page × ℕ))
    (fd k : ℕ) (mgr' : BufferPoolManager R) : Prop where
  sound : Sound K content mgr' (fun i m => (place i m).saved fd k) pins
  shape : SameShape mgr mgr'
  exact : ∀ other, mgr.disk.ExactAt other → mgr'.disk.ExactAt other

/-- A resident page is in the pool of its page id. -/
theorem Sound.poolOf_eq (sound : Sound K content mgr place pins) {i m : ℕ} (inside : i < mgr.partitioner.numPartitions)
    {page : Page} (here : place i m = .resident page) : mgr.poolOf page = i := by
  have mine := ((sound.inv i inside).owned m page (Or.inl here)).partition
  change (mgr.pools i).pageTable.partitioner.getPartitionId _ = (mgr.pools i).poolId at mine
  rwa [sound.partitioner i inside, sound.poolId i inside] at mine

/-- The flush of a page that no one holds and that no flush has left locked. -/
theorem Sound.flushUnheld (sound : Sound K content mgr place pins) {page : Page} (inFile : InFile mgr page)
    (unheld : ∀ pin ∈ pins (mgr.poolOf page), pin.1 ≠ page) (unlocked : ∀ m, ¬ (place (mgr.poolOf page) m).Locks page)
    (deleteFromMemory : Bool) : ∃ mgr', mgr.flushPage page.fpageId page.fd deleteFromMemory = .ok (true, mgr') ∧
      Sound K content mgr' (fun i m =>
        if place i m = .resident page then flushedPlace page deleteFromMemory else place i m) pins ∧
      SameShape mgr mgr' ∧ ∀ other, mgr.disk.ExactAt other → mgr'.disk.ExactAt other := by
  have inside := mgr.poolOf_lt page
  have narrow : page.fpageId % fpageIdRange = page.fpageId := Nat.mod_eq_of_lt inFile.fpageId_lt
  have inv := sound.inv _ inside
  rcases inv.word?_cases (sound.owns inFile) with ⟨m, here⟩ | ⟨m, locks⟩ | empty
  · have unpinned : ((mgr.pool (mgr.poolOf page)).pageTable.ptes m).refCount = 0 := by
      rw [inv.counted m _ (Or.inl here), List.countP_eq_zero]
      rintro ⟨other, m'⟩ member same
      obtain rfl : m' = m := by simpa using same
      rcases inv.pinned other m' member with held | held <;> cases here.symm.trans held
      exact unheld _ member rfl
    -- the page is resident in the one frame that its mapping names
    have alone {i k : ℕ} (bound : i < mgr.partitioner.numPartitions) (there : place i k = .resident page) :
        i = mgr.poolOf page ∧ k = m := by
      obtain rfl := sound.poolOf_eq bound there
      have word := inv.word?_resident there
      rw [inv.word?_resident here] at word
      cases word
      exact ⟨rfl, rfl⟩
    obtain ⟨pool', ran, flushed⟩ := inv.flushPage here unpinned deleteFromMemory
    obtain ⟨coherent, _, others⟩ := (sound.coherent _ inside).flushed inv here flushed
    have settled (n : ℕ) (other : Page) : update (place (mgr.poolOf page)) m
        (flushedPlace page deleteFromMemory) n ≠ .loading other := by
      by_cases mine : n = m
      · subst mine
        rw [update_self]
        cases deleteFromMemory <;> nofun
      · rw [update_of_ne mine]
        exact sound.settled _ inside n other
    have sound' := sound.setPool inside flushed.files flushed.handles (flushed.inv inv here unpinned) settled coherent
      fun j bound _ => (sound.coherent j bound).withDisk flushed.handles others
    rw [update_eq_self] at sound'
    refine ⟨mgr.setPool (mgr.poolOf page) pool', ?_, sound'.congr_place fun i bound => funext fun n => ?_,
      sameShape_setPool flushed.handles, fun other before => ?_⟩
    · rw [BufferPoolManager.flushPage, narrow]
      simp only [ran, ok_bind]
      rfl
    · split_ifs with resident
      · obtain ⟨rfl, rfl⟩ := alone bound resident
        rw [update_self, update_self]
      · by_cases mine : i = mgr.poolOf page
        · subst mine
          rw [update_self, update_of_ne (fun same : n = m => resident (same ▸ here))]
        · rw [update_of_ne mine]
    · have spilled := flushed.spilled
      unfold Spilled at spilled
      split_ifs at spilled
      · exact before.write inFile.fpageId_lt (fun same => same ▸ inFile.inside.le) spilled
      · change pool'.disk.ExactAt other
        rwa [spilled]
  · exact absurd locks (unlocked m)
  · refine ⟨mgr.setPool (mgr.poolOf page) (mgr.pool (mgr.poolOf page)), ?_, ?_, sameShape_setPool (.refl _),
      fun _ => id⟩
    · rw [BufferPoolManager.flushPage, narrow]
      simp only [flushPage_empty empty, ok_bind]
      rfl
    · have sound' := sound.setPool inside (.refl _) (.refl _) inv (sound.settled _ inside) (sound.coherent _ inside)
        fun j bound _ => (sound.coherent j bound).withDisk (.refl _) fun _ => id
      rw [update_eq_self, update_eq_self] at sound'
      refine sound'.congr_place fun i bound => funext fun n => if_neg fun resident => ?_
      obtain rfl := sound.poolOf_eq bound resident
      have word := inv.word?_resident resident
      rw [empty] at word
      cases word

/-- The flush of the next page. -/
theorem Saved.step (saved : Saved K content mgr place pins fd k mgr') (range : InRange mgr fd 0 0)
    (below : k < mgr.fpageNum fd) (unheld : Unheld pins fd)
    (unlocked : ∀ i < mgr.partitioner.numPartitions, ∀ m page, page.fd = fd → ¬ (place i m).Locks page) :
    ∃ mgr'', mgr'.flushPage k fd false = .ok (true, mgr'') ∧ Saved K content mgr place pins fd (k + 1) mgr'' := by
  obtain ⟨sound, shape, exact⟩ := saved
  have inside : mgr'.poolOf ⟨fd, k⟩ < mgr.partitioner.numPartitions := shape.partitioner ▸ mgr'.poolOf_lt ⟨fd, k⟩
  have free (m : ℕ) : ¬ ((place (mgr'.poolOf ⟨fd, k⟩) m).saved fd k).Locks ⟨fd, k⟩ := by
    intro locks
    rcases Place.saved_locks locks with locks | ⟨_, earlier⟩
    · exact unlocked _ inside m _ rfl locks
    · exact lt_irrefl k earlier
  obtain ⟨mgr'', ran, sound', shape', exact'⟩ := sound.flushUnheld (shape.inFile (range.inFile below))
    (fun pin member same => unheld _ pin member (congrArg Page.fd same)) free false
  refine ⟨mgr'', ran, sound'.congr_place fun i _ => funext fun m => Place.saved_succ, shape.trans shape',
    fun other before => exact' other (exact other before)⟩

/-- The flush of a file that no one holds and that no flush has left locked. -/
theorem Sound.saveFile (sound : Sound K content mgr place pins) (range : InRange mgr fd 0 0)
    (unheld : Unheld pins fd)
    (unlocked : ∀ i < mgr.partitioner.numPartitions, ∀ m page, page.fd = fd → ¬ (place i m).Locks page) :
    ∃ mgr', mgr.flushFile fd false = .ok (true, mgr') ∧ Saved K content mgr place pins fd (mgr.fpageNum fd) mgr' := by
  have upTo (n : ℕ) (within : n ≤ mgr.fpageNum fd) : ∃ mgr',
      (List.range n).foldlM (fun state fpageId => state.2.flushPage fpageId fd false) (true, mgr) = .ok (true, mgr') ∧
        Saved K content mgr place pins fd n mgr' := by
    induction n with
    | zero =>
      refine ⟨mgr, rfl, ?_, .refl _, fun _ => id⟩
      simpa only [Place.saved_zero] using sound
    | succ n ih =>
      obtain ⟨mid, ran, saved⟩ := ih (by omega)
      obtain ⟨mgr', last, after⟩ := saved.step range within unheld unlocked
      refine ⟨mgr', ?_, after⟩
      rw [List.range_succ, List.foldlM_append, ran]
      simp only [ok_bind, List.foldlM_cons, List.foldlM_nil, last]
      rfl
  obtain ⟨mgr', ran, saved⟩ := upTo _ le_rfl
  exact ⟨mgr', by rw [flushFile, if_pos range.valid]; exact ran, saved⟩

/-- The manager after `CloseFile`. -/
structure Closes (K : ℕ → ℕ → Prop) (content : Content) (mgr : BufferPoolManager R)
    (place : ℕ → ℕ → Place) (pins : ℕ → List (Page × ℕ))
    (fd : ℕ) (mgr' : BufferPoolManager R) : Prop where
  partitioner : mgr'.partitioner = mgr.partitioner
  poolSize : mgr'.poolSize = mgr.poolSize
  length : mgr'.disk.files.length = mgr.disk.files.length
  valid : ∀ other, mgr'.disk.validFD other = if other = fd then false else mgr.disk.validFD other
  size : ∀ other, mgr'.disk.getFileSizeFast other = mgr.disk.getFileSizeFast other
  sound : Sound (fun other i => other ≠ fd ∧ K other i) content mgr' (fun i m => (place i m).closed fd) pins
  byte : ∀ i < mgr.disk.getFileSizeFast fd, K fd i → mgr'.disk.byte fd i = content fd i
  exact : ∀ other, mgr.disk.ExactAt other → mgr'.disk.ExactAt other

omit [Replacer R] [LawfulReplacer R] in
/-- What `CloseFile` does after the flush. -/
theorem exists_deregister (mgr : BufferPoolManager R) (fd : ℕ) : ∃ mgr',
    { mgr with disk := mgr.disk.closeFile fd }.eachPool (fun pool => .ok (pool.closeFile fd)) = .ok mgr' ∧
      mgr'.partitioner = mgr.partitioner ∧ mgr'.poolSize = mgr.poolSize ∧ mgr'.disk = mgr.disk.closeFile fd ∧
        ∀ i < mgr.partitioner.numPartitions,
          mgr'.pool i = { (mgr.pool i).closeFile fd with disk := mgr.disk.closeFile fd } := by
  obtain ⟨mgr', ran, partitioner, poolSize, disk, pools⟩ := eachPool_ok { mgr with disk := mgr.disk.closeFile fd }
    (f := fun pool => .ok (pool.closeFile fd)) (fun i _ => rfl) (fun i _ => rfl)
  refine ⟨mgr', ran, partitioner, poolSize, disk, fun i inside => ?_⟩
  rw [BufferPoolManager.pool, pools i inside, disk]
  rfl

/-- The mappings of the other files are where they were. -/
theorem Sound.deregister (sound : Sound K content mgr place pins)
    (partitioner : mgr'.partitioner = mgr.partitioner) (poolSize : mgr'.poolSize = mgr.poolSize)
    (disk : mgr'.disk = mgr.disk.closeFile fd) (pools : ∀ i < mgr.partitioner.numPartitions,
      mgr'.pool i = { (mgr.pool i).closeFile fd with disk := mgr.disk.closeFile fd }) :
    Sound (fun other i => other ≠ fd ∧ K other i) content mgr' (fun i m => (place i m).closed fd) pins := by
  have field {α : Type} (get : BufferPool R → α) {i : ℕ} (inside : i < mgr.partitioner.numPartitions) :
      get (mgr'.pool i) = get { (mgr.pool i).closeFile fd with disk := mgr.disk.closeFile fd } :=
    congrArg get (pools i inside)
  have shape {i : ℕ} (inside : i < mgr.partitioner.numPartitions) :
      (mgr'.pools i).pageTable.shape = (mgr.pools i).pageTable.shape.set fd none :=
    (field (fun pool => pool.pageTable.shape) inside).trans PageTable.deregisterFile_shape
  exact {
    partitioner := by
      rw [partitioner]
      exact fun i inside => (field (fun pool => pool.pageTable.partitioner) inside).trans (sound.partitioner i inside)
    length := by
      rw [partitioner, disk, closeFile_length]
      intro i inside
      rw [shape inside, List.length_set]
      exact sound.length i inside
    slots := by
      rw [partitioner, disk]
      intro i inside other valid
      rw [closeFile_validFD] at valid
      split_ifs at valid with same
      obtain ⟨n, here, reaches⟩ := sound.slots i inside other valid
      refine ⟨n, ?_, by rwa [closeFile_size]⟩
      rw [shape inside, List.getElem?_set_ne (Ne.symm same)]
      exact here
    poolId := by
      rw [partitioner]
      exact fun i inside => (field BufferPool.poolId inside).trans (sound.poolId i inside)
    poolSize := by
      rw [partitioner, poolSize]
      exact fun i inside => (field BufferPool.poolSize inside).trans (sound.poolSize i inside)
    inv := by
      rw [partitioner]
      intro i inside
      rw [pools i inside]
      exact (sound.inv i inside).closeFile (sound.settled i inside) closeFile_validFD
    coherent := by
      rw [partitioner]
      intro i inside
      rw [pools i inside]
      exact (sound.coherent i inside).closeFile closeFile_file closeFile_size
    settled := by
      rw [partitioner]
      intro i inside m page there
      exact sound.settled i inside m page (Place.closed_eq_loading.mp there) }

/-- `CloseFile` of a file that no one holds returns. -/
theorem Sound.closeFile (sound : Sound K content mgr place pins) (range : InRange mgr fd 0 0)
    (unheld : Unheld pins fd)
    (unlocked : ∀ i < mgr.partitioner.numPartitions, ∀ m page, page.fd = fd → ¬ (place i m).Locks page) :
    ∃ mgr', mgr.closeFile fd = .ok mgr' ∧ Closes K content mgr place pins fd mgr' := by
  obtain ⟨mid, flushed, saved⟩ := sound.saveFile range unheld unlocked
  obtain ⟨mgr', ran, partitioner, poolSize, disk, pools⟩ := exists_deregister mid fd
  have closed := saved.sound.deregister partitioner poolSize disk pools
  simp only [Place.closed_saved] at closed
  refine ⟨mgr', ?_, ?_, ?_, ?_, fun other => ?_, fun other => ?_, closed, fun i inside known => ?_,
    fun other exact => ?_⟩
  · simp only [BufferPoolManager.closeFile, flushed, ok_bind, check_true, ran]
  · rw [partitioner, saved.shape.partitioner]
  · rw [poolSize, saved.shape.poolSize]
  · rw [disk, closeFile_length, saved.shape.handles.length]
  · rw [disk, closeFile_validFD, saved.shape.handles.valid]
  · rw [disk, closeFile_size, saved.shape.handles.size]
  · have page : i / pageSize < mgr.fpageNum fd := (lt_ceil_iff (by decide)).mpr
      ((Nat.div_mul_le_self i _).trans_lt inside)
    have small : i % pageSize < pageSize := Nat.mod_lt _ (by decide)
    have owns := saved.sound.owns (saved.shape.inFile (range.inFile page))
    have synced := (saved.sound.coherent _ (mid.poolOf_lt ⟨fd, i / pageSize⟩)).away ⟨fd, i / pageSize⟩ owns.partition
      fun m here => (Place.saved_eq_resident.mp here).2 ⟨rfl, page⟩
    have position : (⟨fd, i / pageSize⟩ : Page).position (i % pageSize) = i := Nat.div_add_mod' i pageSize
    have same := synced _ small (by rwa [position])
    rw [position] at same
    rw [DiskManager.byte, disk, closeFile_file]
    exact same
  · rw [ExactAt, disk, closeFile_file, closeFile_size]
    exact saved.exact other exact

end BufferPoolManager

section replacers

variable {R : Type}

/-- `FlushPage` does not touch the replacer. -/
theorem BufferPool.flushPage_replacer {pool pool' : BufferPool R} {page : Page} {deleteFromMemory result : Bool}
    (ran : pool.flushPage page deleteFromMemory = .ok (result, pool')) : pool'.replacer = pool.replacer := by
  obtain ⟨⟨locked, pageTable⟩, _, ran⟩ := bind_eq_ok.mp ran
  cases locked with
  | none =>
    cases ran
    rfl
  | some value =>
    cases value with
    | empty | busy =>
      obtain ⟨_, _, ran⟩ := bind_eq_ok.mp ran
      obtain ⟨_, _, ran⟩ := bind_eq_ok.mp ran
      cases ran
      rfl
    | frame m =>
      dsimp only at ran
      split_ifs at ran
      · obtain ⟨_, _, ran⟩ := bind_eq_ok.mp ran
        obtain ⟨_, stored, ran⟩ := bind_eq_ok.mp ran
        cases stored
        obtain ⟨_, _, ran⟩ := bind_eq_ok.mp ran
        obtain ⟨_, _, ran⟩ := bind_eq_ok.mp ran
        cases ran
        rfl
      · obtain ⟨_, _, ran⟩ := bind_eq_ok.mp ran
        obtain ⟨_, stored, ran⟩ := bind_eq_ok.mp ran
        cases stored
        cases ran
        rfl
      · obtain ⟨_, stored, ran⟩ := bind_eq_ok.mp ran
        cases stored
        obtain ⟨_, _, ran⟩ := bind_eq_ok.mp ran
        obtain ⟨_, _, ran⟩ := bind_eq_ok.mp ran
        cases ran
        rfl
      · obtain ⟨_, stored, ran⟩ := bind_eq_ok.mp ran
        cases stored
        cases ran
        rfl

namespace BufferPoolManager

open Function BufferPool

variable {mgr mgr' : BufferPoolManager R} {fd : ℕ}

theorem flushPage_replacers {k : ℕ} {deleteFromMemory result : Bool}
    (ran : mgr.flushPage k fd deleteFromMemory = .ok (result, mgr')) :
    mgr'.partitioner = mgr.partitioner ∧ ∀ i, (mgr'.pools i).replacer = (mgr.pools i).replacer := by
  obtain ⟨⟨_, pool'⟩, flushed, ran⟩ := bind_eq_ok.mp ran
  cases ran
  refine ⟨rfl, fun i => ?_⟩
  change (update mgr.pools _ pool' i).replacer = _
  by_cases same : i = mgr.poolOf ⟨fd, k % fpageIdRange⟩
  · rw [same, update_self, flushPage_replacer flushed]
    rfl
  · rw [update_of_ne same]

theorem flushFile_replacers {deleteFromMemory result : Bool}
    (ran : mgr.flushFile fd deleteFromMemory = .ok (result, mgr')) :
    mgr'.partitioner = mgr.partitioner ∧ ∀ i, (mgr'.pools i).replacer = (mgr.pools i).replacer := by
  unfold flushFile at ran
  split_ifs at ran with valid
  · clear valid
    generalize List.range _ = ids at ran
    generalize true = before at ran
    induction ids generalizing mgr before with
    | nil =>
      cases ran
      exact ⟨rfl, fun _ => rfl⟩
    | cons k ids ih =>
      rw [List.foldlM_cons] at ran
      obtain ⟨⟨flushed, mid⟩, visited, ran⟩ := bind_eq_ok.mp ran
      obtain ⟨partitioner, first⟩ := flushPage_replacers visited
      obtain ⟨partitioner', rest⟩ := ih _ ran
      exact ⟨partitioner'.trans partitioner, fun i => (rest i).trans (first i)⟩
  · cases ran
    exact ⟨rfl, fun _ => rfl⟩

/-- `CloseFile` leaves the replacers as they are. -/
theorem closeFile_replacers (ran : mgr.closeFile fd = .ok mgr') :
    ∀ i < mgr.partitioner.numPartitions, (mgr'.pools i).replacer = (mgr.pools i).replacer := by
  obtain ⟨⟨_, mid⟩, flushed, ran⟩ := bind_eq_ok.mp ran
  obtain ⟨_, _, ran⟩ := bind_eq_ok.mp ran
  obtain ⟨partitioner, same⟩ := flushFile_replacers flushed
  obtain ⟨_, returned, _, _, _, pools⟩ := exists_deregister mid fd
  cases returned.symm.trans ran
  intro i inside
  rw [← partitioner] at inside
  exact (congrArg BufferPool.replacer (pools i inside)).trans (same i)

end BufferPoolManager

end replacers

end Gbp
