import GraphBufferPool.Manager.Sessions

/-! # Objects of one pool

`BufferPool::GetObject` and `BufferPool::SetObject`. Both copy from the buffer to the pages and release
these as written, so `GetObject` is `SetObject`: it stores the buffer it is given and leaves it as it was.
-/

namespace Gbp

open Function LawfulReplacer DiskManager Fuel Machine

namespace BufferPool

variable {R : Type} [Replacer R]

/-- What `SetObject` does with one page. -/
def setObjectBody (buf : Bytes) (fd : ℕ) (flush : Bool) (fuel fpageId fpageOffset blockSize done : ℕ)
    (pool : BufferPool R) : Except Stop (ℕ × BufferPool R) := do
  let (m, pool) ← pool.fetchPageSync fuel ⟨fd, fpageId⟩
  let n := objectSize fpageOffset blockSize
  let pool := { pool with memory := update pool.memory m (memcpy (pool.memory m) fpageOffset buf done n) }
  let pool := pool.decRefCount m true
  if flush then
    let (_, pool) ← pool.flushPage ⟨fd, fpageId⟩ false
    return (n, pool)
  else return (n, pool)

/-- `SetObject`. -/
def setObject (fuel : ℕ) (buf : Bytes) (fileOffset blockSize fd : ℕ) (flush : Bool) (pool : BufferPool R) :
    Except Stop (BufferPool R) :=
  blockLoop (setObjectBody buf fd flush) fuel (fpageIdOf fileOffset) (fileOffset % pageSize) blockSize 0 pool

/-- What `GetObject` does with one page: it calls `PageTableInner::SetObject`. -/
def getObjectBody (fd fuel fpageId fpageOffset blockSize done : ℕ) :
    Bytes × BufferPool R → Except Stop (ℕ × Bytes × BufferPool R)
  | (buf, pool) => do
    let (m, pool) ← pool.fetchPageSync fuel ⟨fd, fpageId⟩
    let n := objectSize fpageOffset blockSize
    let pool := { pool with memory := update pool.memory m (memcpy (pool.memory m) fpageOffset buf done n) }
    return (n, buf, pool.decRefCount m true)

/-- `GetObject`: the buffer after the call. -/
def getObject (fuel : ℕ) (buf : Bytes) (fileOffset blockSize fd : ℕ) (pool : BufferPool R) :
    Except Stop (Bytes × BufferPool R) :=
  blockLoop (getObjectBody fd) fuel (fpageIdOf fileOffset) (fileOffset % pageSize) blockSize 0 (buf, pool)

end BufferPool

/-- A loop over states that are functions of those of another loop. -/
theorem blockLoop_map {σ τ : Type} {body : ℕ → ℕ → ℕ → ℕ → ℕ → σ → Except Stop (ℕ × σ)}
    {body' : ℕ → ℕ → ℕ → ℕ → ℕ → τ → Except Stop (ℕ × τ)} (f : σ → τ)
    (visits : ∀ fuel fpageId fpageOffset left done s, body' fuel fpageId fpageOffset left done (f s) =
      (body fuel fpageId fpageOffset left done s).map fun result => (result.1, f result.2))
    (fuel fpageId fpageOffset left done : ℕ) (s : σ) :
    blockLoop body' fuel fpageId fpageOffset left done (f s) =
      (blockLoop body fuel fpageId fpageOffset left done s).map f := by
  induction fuel generalizing fpageId fpageOffset left done s with
  | zero => rfl
  | succ fuel ih =>
    simp only [blockLoop]
    split_ifs with empty
    · rfl
    · rw [visits]
      cases body fuel fpageId fpageOffset left done s with
      | error stop => rfl
      | ok result => exact ih _ _ _ _ _

namespace BufferPoolManager

variable {R : Type} [Replacer R] {mgr : BufferPoolManager R} {pool : BufferPool R}

/-- `GetObject` stores the buffer and returns it. -/
theorem getObject_eq_setObject (fuel : ℕ) (buf : Bytes) (fileOffset blockSize fd : ℕ) (pool : BufferPool R) :
    pool.getObject fuel buf fileOffset blockSize fd =
      (pool.setObject fuel buf fileOffset blockSize fd false).map fun pool => (buf, pool) := by
  refine blockLoop_map (fun pool => (buf, pool)) (fun fuel fpageId fpageOffset left done pool => ?_) _ _ _ _ _ pool
  dsimp only [BufferPool.getObjectBody, BufferPool.setObjectBody]
  cases pool.fetchPageSync fuel ⟨fd, fpageId⟩ <;> rfl

theorem getObject_buffer {pool pool' : BufferPool R} {fuel fileOffset blockSize fd : ℕ} {buf buf' : Bytes}
    (got : pool.getObject fuel buf fileOffset blockSize fd = .ok (buf', pool')) : buf' = buf := by
  rw [getObject_eq_setObject] at got
  obtain ⟨_, _, same⟩ := map_eq_ok.mp got
  cases same
  rfl

omit [Replacer R] in
/-- The manager of one pool. -/
theorem poolOf_single (single : mgr.partitioner.numPartitions = 1) (page : Page) : mgr.poolOf page = 0 := by
  have below := mgr.poolOf_lt page
  omega

/-- `SetBlock` of a manager of one pool is `SetObject` of the pool. -/
theorem setBlock_eq_setObject (single : mgr.partitioner.numPartitions = 1) (fuel : ℕ) (buf : Bytes)
    (fileOffset blockSize fd : ℕ) (pool : BufferPool R) :
    (mgr.setPool 0 pool).setBlock fuel buf fileOffset blockSize fd false =
      (pool.setObject fuel buf fileOffset blockSize fd false).map (mgr.setPool 0) := by
  refine blockLoop_map (mgr.setPool 0) (fun fuel fpageId fpageOffset left done pool => ?_) _ _ _ _ _ pool
  have here (pool : BufferPool R) : (mgr.setPool 0 pool).poolOf ⟨fd, fpageId⟩ = 0 := poolOf_single single _
  have again (first second : BufferPool R) : (mgr.setPool 0 first).setPool 0 second = mgr.setPool 0 second := by
    simp only [BufferPoolManager.setPool, update_idem]
  have memory (pool : BufferPool R) : (mgr.setPool 0 pool).pools 0 = pool := by
    simp only [BufferPoolManager.setPool, update_self]
  dsimp only [setBlockBody, BufferPool.setObjectBody, BufferPoolManager.fetchPageSync]
  rw [here, setPool_pool_self]
  cases pool.fetchPageSync fuel ⟨fd, fpageId⟩ with
  | error stop => rfl
  | ok result =>
    obtain ⟨m, fetched⟩ := result
    change Except.ok (objectSize fpageOffset left,
      (((mgr.setPool 0 pool).setPool 0 fetched).setFrame _ m _).decRefCount _ m true) = _
    rw [again]
    simp only [BufferPoolManager.setFrame, BufferPoolManager.frame, BufferPoolManager.decRefCount, here, again,
      setPool_pool_self, memory]
    rfl

/-- A call of `GetObject` that is a read: it fills the range of the buffer with the bytes that `GetBlock`
returns, leaves the bytes of the files and the pins as they were, and no page becomes dirty or clean. -/
def ReadsObject [LawfulReplacer R] (s : Session R) (fd fileOffset blockSize : ℕ) (buf : Bytes) : Prop :=
  ∃ buf' pool', Returns (fun fuel => (s.mgr.pool 0).getObject fuel buf fileOffset blockSize fd) (buf', pool') ∧
    (∀ i < blockSize, buf' i = s.content fd (fileOffset + i)) ∧ (∀ i, blockSize ≤ i → buf' i = buf i) ∧
    Session.Holds ⟨s.mgr.setPool 0 pool', s.content, s.pins⟩ ∧
    ∀ page m, (s.mgr.pool 0).pageTable.word? page = some (.frame m) → pool'.pageTable.word? page = some (.frame m) →
      (pool'.pageTable.ptes m).dirty = ((s.mgr.pool 0).pageTable.ptes m).dirty

variable [LawfulReplacer R] {s : Session R} {fd fileOffset blockSize : ℕ}

/-- The pool as its own operations see it, with the disk of the manager. -/
theorem Session.Holds.refresh (holds : s.Holds) : Session.Holds ⟨s.mgr.setPool 0 (s.mgr.pool 0), s.content, s.pins⟩ := by
  obtain ⟨place, sound, quiet⟩ := holds
  have inside := s.mgr.partitioner.numPartitions_pos
  have same := sound.setPool inside (.refl _) (.refl _) (sound.inv 0 inside) (sound.settled 0 inside)
    (sound.coherent 0 inside) fun j bound _ => sound.coherent j bound
  rw [update_eq_self, update_eq_self] at same
  exact ⟨place, same, quiet⟩

/-- `GetObject` replaces the bytes of the range by those of the buffer. -/
theorem Session.Holds.getObject (holds : s.Holds) (single : s.mgr.partitioner.numPartitions = 1)
    (spare : Spare s.mgr s.pins) (range : InRange s.mgr fd fileOffset blockSize) (buf : Bytes) :
    ∃ pool', Returns (fun fuel => (s.mgr.pool 0).getObject fuel buf fileOffset blockSize fd) (buf, pool') ∧
      Session.Holds ⟨s.mgr.setPool 0 pool', splice s.content fd fileOffset buf blockSize, s.pins⟩ := by
  obtain ⟨place, sound, quiet⟩ := holds.refresh
  have shape : SameShape s.mgr (s.mgr.setPool 0 (s.mgr.pool 0)) := sameShape_setPool (.refl _)
  obtain ⟨mgr', place', ran, sound', quiet', _⟩ :=
    sound.setBlock quiet (shape.spare spare) (shape.inRange range) buf
  have stores (fuel : ℕ) (returned : (s.mgr.setPool 0 (s.mgr.pool 0)).setBlock fuel buf fileOffset blockSize fd false =
      .ok mgr') : (s.mgr.pool 0).getObject fuel buf fileOffset blockSize fd = .ok (buf, mgr'.pools 0) ∧
        s.mgr.setPool 0 (mgr'.pools 0) = mgr' := by
    rw [setBlock_eq_setObject single] at returned
    obtain ⟨pool', stored, same⟩ := map_eq_ok.mp returned
    have here : mgr'.pools 0 = pool' := by
      rw [← same]
      simp only [BufferPoolManager.setPool, update_self]
    rw [getObject_eq_setObject, stored, here]
    exact ⟨rfl, same⟩
  obtain ⟨n, ran⟩ := ran
  refine ⟨mgr'.pools 0, ⟨n, fun fuel enough => (stores fuel (ran fuel enough)).1⟩, ?_⟩
  rw [(stores n (ran n le_rfl)).2]
  exact ⟨place', sound'.mono fun _ _ => Or.inl, quiet'⟩

/-- The bytes `GetObject` leaves in the range of a buffer are those that were there. -/
theorem ReadsObject.buffer {buf : Bytes} (reads : ReadsObject s fd fileOffset blockSize buf) {i : ℕ}
    (inside : i < blockSize) : buf i = s.content fd (fileOffset + i) := by
  obtain ⟨buf', _, ⟨n, ran⟩, filled, _⟩ := reads
  have byte := filled i inside
  rwa [getObject_buffer (ran n le_rfl)] at byte

/-- `GetObject` is a read of no range but the empty one: of every other it stores the buffer, and returns
the bytes of the file only where the buffer had them before. -/
theorem get_object_reads_iff (run : SessionRun s) (single : s.mgr.partitioner.numPartitions = 1)
    (range : InRange s.mgr fd fileOffset blockSize) :
    ((∀ buf, ReadsObject s fd fileOffset blockSize buf) ↔ blockSize = 0) ∧
    (∀ buf, ReadsObject s fd fileOffset blockSize buf → ∀ i < blockSize, buf i = s.content fd (fileOffset + i)) ∧
    (Spare s.mgr s.pins → ∀ buf, ∃ pool',
      Returns (fun fuel => (s.mgr.pool 0).getObject fuel buf fileOffset blockSize fd) (buf, pool') ∧
        Session.Holds ⟨s.mgr.setPool 0 pool', splice s.content fd fileOffset buf blockSize, s.pins⟩) := by
  refine ⟨⟨fun reads => ?_, ?_⟩, fun buf reads i inside => reads.buffer inside,
    fun spare buf => run.holds.getObject single spare range buf⟩
  · by_contra some
    have first := (reads fun i => if s.content fd (fileOffset + i) = 0 then 1 else 0).buffer (Nat.pos_of_ne_zero some)
    split_ifs at first with zero
    · rw [zero] at first
      cases first
    · exact zero first.symm
  · rintro rfl buf
    refine ⟨buf, s.mgr.pool 0, ⟨1, fun fuel enough => ?_⟩, nofun, fun _ _ => rfl, run.holds.refresh, fun _ _ _ _ => rfl⟩
    obtain ⟨fuel, rfl⟩ := Nat.exists_eq_add_of_le' enough
    rfl

/-- A manager of one pool with one frame and a file of 100 zeros. -/
def hundredZeros : Session SieveReplacer_v3 :=
  ⟨oneFrame (zeroFile 100 (by decide)), opened (fun _ _ => 0) 0 (zeroFile 100 (by decide)).1, fun _ => []⟩

theorem hundredZeros_run : SessionRun hundredZeros := .init (.init _ _ _ _)

theorem hundredZeros_range : InRange hundredZeros.mgr 0 10 1 := ⟨by decide, rfl, by decide, by decide⟩

theorem get_object_reads_hundredZeros :
    ((∀ buf, ReadsObject hundredZeros 0 10 1 buf) ↔ 1 = 0) ∧
    (∀ buf, ReadsObject hundredZeros 0 10 1 buf → ∀ i < 1, buf i = hundredZeros.content 0 (10 + i)) ∧ ∀ buf, ∃ pool',
      Returns (fun fuel => (hundredZeros.mgr.pool 0).getObject fuel buf 10 1 0) (buf, pool') ∧
        Session.Holds ⟨hundredZeros.mgr.setPool 0 pool', splice hundredZeros.content 0 10 buf 1, hundredZeros.pins⟩ := by
  have reads := get_object_reads_iff hundredZeros_run rfl hundredZeros_range
  exact ⟨reads.1, reads.2.1, reads.2.2 (spare_of_no_pins (by decide))⟩

/-- The byte read is the one that was in the buffer. -/
theorem not_get_object_reads : ¬ ∀ (s : Session SieveReplacer_v3) (fd fileOffset blockSize : ℕ) (buf : Bytes),
    SessionRun s → s.mgr.partitioner.numPartitions = 1 → InRange s.mgr fd fileOffset blockSize →
      ReadsObject s fd fileOffset blockSize buf := by
  intro claimed
  have reads := claimed hundredZeros 0 10 1 (fun _ => 1) hundredZeros_run rfl hundredZeros_range
  have first := reads.buffer Nat.one_pos
  cases first

end BufferPoolManager

end Gbp
