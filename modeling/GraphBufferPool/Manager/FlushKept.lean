import GraphBufferPool.Manager.FlushFile

/-! # A page that is flushed and kept

`FlushPage` without deletion writes the page back and returns true, with the mapping still BUSY and the entry
still locked. No one unlocks them: the page stays in its frame, and no later call gets it.
-/

namespace Gbp.BufferPoolManager

open Function LawfulReplacer BufferPool DiskManager Fuel

variable {R : Type} [Replacer R]

/-- The entry of frame `m` of the pool of `page`. -/
def entry (mgr : BufferPoolManager R) (page : Page) (m : ℕ) : PTE := (mgr.pools (mgr.poolOf page)).pageTable.ptes m

/-- The mapping of `page`. -/
def mapping (mgr : BufferPoolManager R) (page : Page) : Option MapWord :=
  (mgr.pools (mgr.poolOf page)).pageTable.word? page

/-- The page is saved, and it can be used in frame `m` as before. -/
structure Usable (mgr mgr' : BufferPoolManager R) (page : Page) (m : ℕ) : Prop where
  saved : ∀ i < pageSize, page.position i < mgr.disk.getFileSizeFast page.fd →
    mgr'.disk.byte page.fd (page.position i) = mgr.frame page m i
  entry : (mgr'.entry page m).dirty = false ∧ (mgr'.entry page m).busy = false
  mapped : mgr'.mapping page = some (.frame m)
  fetched : ∃ mgr'', Returns (fun fuel => mgr'.fetchPageSync fuel page) (m, mgr'') ∧
    mgr''.frame page m = mgr.frame page m

/-- A `FlushPage` without deletion that returns true keeps the page usable. -/
def FlushKeeps (mgr : BufferPoolManager R) (page : Page) (m : ℕ) : Prop :=
  ∀ mgr', mgr.flushPage page.fpageId page.fd false = .ok (true, mgr') → Usable mgr mgr' page m

variable {mgr : BufferPoolManager R} {page : Page} {m : ℕ}

/-- No fetch of a locked page returns. -/
theorem fetchPageSync_locked (locked : mgr.mapping page = some .busy) (result : ℕ × BufferPoolManager R) :
    ¬ Returns (fun fuel => mgr.fetchPageSync fuel page) result := by
  refine @Returns.not_of_error _ _ _ Stop.outOfFuel (fun fuel => ?_) result
  have busy : (mgr.pool (mgr.poolOf page)).pageTable.word? page = some .busy := locked
  simp only [BufferPoolManager.fetchPageSync, fetchPageSync_busy busy fuel]
  rfl

/-- No `GetBlock` of a range that starts in a locked page returns. -/
theorem getBlock_locked (locked : mgr.mapping page = some .busy) (bound : page.fpageId < fpageIdRange) (buf : Bytes)
    {fileOffset n : ℕ} (positive : 0 < n) (starts : fileOffset / pageSize = page.fpageId)
    (result : Bytes × BufferPoolManager R) :
    ¬ Returns (fun fuel => mgr.getBlock fuel buf fileOffset n page.fd) result := by
  have busy : (mgr.pool (mgr.poolOf page)).pageTable.word? page = some .busy := locked
  have id : fpageIdOf fileOffset = page.fpageId := by rw [fpageIdOf, starts, Nat.mod_eq_of_lt bound]
  refine @Returns.not_of_error _ _ _ Stop.outOfFuel (fun fuel => ?_) result
  cases fuel with
  | zero => rfl
  | succ fuel =>
    simp only [getBlock, blockLoop, if_neg (Nat.pos_iff_ne_zero.mp positive), getBlockBody, id,
      BufferPoolManager.fetchPageSync, fetchPageSync_busy busy fuel]
    rfl

variable [LawfulReplacer R] {content : Content} {place : ℕ → ℕ → Place} {pins : ℕ → List (Page × ℕ)}

/-- What the flush of a page that no one holds leaves behind. -/
theorem Sound.flushPage_locks (sound : Sound (fun _ _ => True) content mgr place pins) (inFile : InFile mgr page)
    (resident : mgr.mapping page = some (.frame m)) (unpinned : (mgr.entry page m).refCount = 0) :
    ∃ mgr', mgr.flushPage page.fpageId page.fd false = .ok (true, mgr') ∧ mgr'.mapping page = some .busy ∧
      ∀ i < pageSize, mgr'.disk.byte page.fd (page.position i) = mgr.frame page m i := by
  have inside := mgr.poolOf_lt page
  have inv := sound.inv _ inside
  have owns := sound.owns inFile
  have here : place (mgr.poolOf page) m = .resident page := (inv.mapped page owns m).mp resident
  have narrow : page.fpageId % fpageIdRange = page.fpageId := Nat.mod_eq_of_lt inFile.fpageId_lt
  obtain ⟨pool', ran, flushed⟩ := inv.flushPage here unpinned false
  obtain ⟨_, synced, _⟩ := (sound.coherent _ inside).flushed inv here flushed
  refine ⟨mgr.setPool (mgr.poolOf page) pool', ?_, ?_, fun i small => ?_⟩
  · rw [BufferPoolManager.flushPage, narrow]
    simp only [ran, ok_bind]
    rfl
  · have word := flushed.words page owns
    rw [if_pos rfl] at word
    change (update mgr.pools (mgr.poolOf page) pool' (mgr.poolOf page)).pageTable.word? page = some .busy
    rw [update_self]
    exact word
  · rw [sound.frame_byte here small trivial]
    exact synced i small trivial

omit [LawfulReplacer R] in
/-- A page that is left locked is not usable. -/
theorem not_flushKeeps {mgr' : BufferPoolManager R} (ran : mgr.flushPage page.fpageId page.fd false = .ok (true, mgr'))
    (locked : mgr'.mapping page = some .busy) : ¬ FlushKeeps mgr page m := by
  intro keeps
  have mapped := (keeps mgr' ran).mapped
  rw [locked] at mapped
  cases mapped

/-- The flush of a page that no one holds returns true and saves it, and leaves it unusable: no fetch of it and no
`GetBlock` that starts in it returns. -/
theorem flush_page_locks {s : Session R} (run : SavingRun s) (inFile : InFile s.mgr page)
    (resident : s.mgr.mapping page = some (.frame m)) (unpinned : (s.mgr.entry page m).refCount = 0) :
    ¬ FlushKeeps s.mgr page m ∧ ∃ mgr', s.mgr.flushPage page.fpageId page.fd false = .ok (true, mgr') ∧
      (∀ i < pageSize, mgr'.disk.byte page.fd (page.position i) = s.mgr.frame page m i) ∧
      (∀ result, ¬ Returns (fun fuel => mgr'.fetchPageSync fuel page) result) ∧
      ∀ buf fileOffset n, 0 < n → fileOffset / pageSize = page.fpageId → ∀ result,
        ¬ Returns (fun fuel => mgr'.getBlock fuel buf fileOffset n page.fd) result := by
  obtain ⟨place, sound⟩ := run.sound
  obtain ⟨mgr', ran, locked, saved⟩ := sound.flushPage_locks inFile resident unpinned
  refine ⟨not_flushKeeps ran locked, mgr', ran, saved, fetchPageSync_locked locked, ?_⟩
  intro buf fileOffset n positive starts
  exact getBlock_locked locked inFile.fpageId_lt buf positive starts

/-- A fetch of a page of zeros, after which the page is released. -/
theorem exists_fetched : ∃ mgr : BufferPoolManager SieveReplacer_v3,
    Returns (fun fuel => twoZeroPages.mgr.fetchPageSync fuel ⟨0, 0⟩) (0, mgr) ∧
      SameShape twoZeroPages.mgr (mgr.decRefCount ⟨0, 0⟩ 0 false) ∧
      ((⟨0, 0⟩, 0) : Page × ℕ) ∈ update twoZeroPages.pins (twoZeroPages.mgr.poolOf ⟨0, 0⟩)
        ((⟨0, 0⟩, 0) :: twoZeroPages.pins (twoZeroPages.mgr.poolOf ⟨0, 0⟩)) (mgr.poolOf ⟨0, 0⟩) ∧
      (mgr.decRefCount ⟨0, 0⟩ 0 false).mapping ⟨0, 0⟩ = some (.frame 0) ∧
      ((mgr.decRefCount ⟨0, 0⟩ 0 false).entry ⟨0, 0⟩ 0).refCount = 0 := by
  have values : (twoZeroPages.mgr.fetchPageSync 8 ⟨0, 0⟩).map (fun fetched =>
      (fetched.1, (fetched.2.decRefCount ⟨0, 0⟩ fetched.1 false).mapping ⟨0, 0⟩,
        ((fetched.2.decRefCount ⟨0, 0⟩ fetched.1 false).entry ⟨0, 0⟩ 0).refCount)) =
      .ok (0, some (MapWord.frame 0), 0) := by decide +kernel
  obtain ⟨⟨m, mgr⟩, fetch, same⟩ := map_eq_ok.mp values
  obtain ⟨rfl, same⟩ := Prod.mk.inj same
  obtain ⟨mapped, unpinned⟩ := Prod.mk.inj same
  have fetched := (fetchPageSync_stable ⟨0, 0⟩ twoZeroPages.mgr).returns fetch
  obtain ⟨place, sound⟩ := twoZeroPages_run.sound
  obtain ⟨_, _, _, shape, _⟩ := sound.fetched ⟨by decide, rfl, by decide, by decide⟩
    (by simp [Room, twoZeroPages]) fetched
  have released : SameShape mgr (mgr.decRefCount ⟨0, 0⟩ 0 false) := ⟨rfl, rfl, .refl _⟩
  refine ⟨mgr, fetched, shape.trans released, ?_, mapped, unpinned⟩
  rw [shape.poolOf, update_self]
  exact List.mem_cons_self

/-- Before its release the page is pinned in its frame. -/
theorem fetched_pinned {m : ℕ} {mgr : BufferPoolManager SieveReplacer_v3}
    (fetched : Returns (fun fuel => twoZeroPages.mgr.fetchPageSync fuel ⟨0, 0⟩) (m, mgr)) :
    mgr.mapping ⟨0, 0⟩ = some (.frame 0) ∧ (mgr.entry ⟨0, 0⟩ 0).refCount = 1 := by
  have values : (twoZeroPages.mgr.fetchPageSync 8 ⟨0, 0⟩).map (fun fetched =>
      (fetched.2.mapping ⟨0, 0⟩, (fetched.2.entry ⟨0, 0⟩ 0).refCount)) = .ok (some (MapWord.frame 0), 1) := by
    decide +kernel
  obtain ⟨⟨m, mgr⟩, fetch, same⟩ := map_eq_ok.mp values
  cases ((fetchPageSync_stable ⟨0, 0⟩ twoZeroPages.mgr).returns fetch).unique fetched
  exact Prod.mk.inj same

/-- A page that was fetched and released is there to be flushed. -/
theorem exists_unpinned : ∃ (s : Session SieveReplacer_v3), SavingRun s ∧ InFile s.mgr ⟨0, 0⟩ ∧
    s.mgr.mapping ⟨0, 0⟩ = some (.frame 0) ∧ (s.mgr.entry ⟨0, 0⟩ 0).refCount = 0 := by
  have inFile : InFile twoZeroPages.mgr ⟨0, 0⟩ := ⟨by decide, rfl, by decide, by decide⟩
  obtain ⟨mgr, fetched, shape, pin, mapped, unpinned⟩ := exists_fetched
  have run : SavingRun _ := twoZeroPages_run.step (.session (.fetch inFile (by simp [Room, twoZeroPages]) fetched))
  exact ⟨_, run.step (.session (.release pin false)), shape.inFile inFile, mapped, unpinned⟩

theorem flush_page_locks_onePage : ∃ (s : Session SieveReplacer_v3), ¬ FlushKeeps s.mgr ⟨0, 0⟩ 0 ∧
    ∃ mgr', s.mgr.flushPage 0 0 false = .ok (true, mgr') ∧
      ∀ result, ¬ Returns (fun fuel => mgr'.fetchPageSync fuel ⟨0, 0⟩) result := by
  obtain ⟨s, run, inFile, resident, unpinned⟩ := exists_unpinned
  obtain ⟨unusable, mgr', ran, _, locked, _⟩ := flush_page_locks run inFile resident unpinned
  exact ⟨s, unusable, mgr', ran, locked⟩

/-- The page of a run that fetches it, releases it and flushes it. -/
theorem not_flush_page_keeps : ¬ ∀ (s : Session SieveReplacer_v3) (page : Page) (m : ℕ), SavingRun s →
    InFile s.mgr page → s.mgr.mapping page = some (.frame m) → (s.mgr.entry page m).refCount = 0 →
      FlushKeeps s.mgr page m := by
  intro claimed
  obtain ⟨s, run, inFile, resident, unpinned⟩ := exists_unpinned
  obtain ⟨place, sound⟩ := run.sound
  obtain ⟨mgr', ran, locked, _⟩ := sound.flushPage_locks inFile resident unpinned
  exact not_flushKeeps ran locked (claimed s ⟨0, 0⟩ 0 run inFile resident unpinned)

end Gbp.BufferPoolManager
