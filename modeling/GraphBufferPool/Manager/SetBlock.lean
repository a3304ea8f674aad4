import GraphBufferPool.Block.Copy
import GraphBufferPool.Lib.Reach
import GraphBufferPool.Manager.Blocks
import GraphBufferPool.Manager.Files

/-! # `SetBlock` from a block

The overload of `SetBlock` that copies out of a `BufferBlock`, over a memory in which the frames of
the pools lie one after the other. It stores what the overload for a buffer would exactly when each
call of `Copy` reads the addresses of its bytes.
-/

namespace Gbp.BufferPoolManager

section model

variable {R : Type}

/-- The address of a frame; the pools share one array of frames. -/
def frameAddress (mgr : BufferPoolManager R) (i m : ℕ) : ℕ := (i * mgr.poolSize + m) * pageSize

/-- The size of the memory of the frames. -/
def frameMemory (mgr : BufferPoolManager R) : ℕ := mgr.partitioner.numPartitions * mgr.poolSize * pageSize

/-- The byte at an address: of a frame, or of `heap`, the memory behind the frames. -/
def byteAt (mgr : BufferPoolManager R) (heap : Bytes) (address : ℕ) : UInt8 :=
  if address < mgr.frameMemory then
    (mgr.pools (address / pageSize / mgr.poolSize)).memory (address / pageSize % mgr.poolSize)
      (address % pageSize)
  else heap address

/-- The copies of `Copy` into the frame `m` of the pool of `page`, from `fpageOffset` on. -/
def copySlices (heap : Bytes) (page : Page) (m fpageOffset : ℕ) (slices : List Slice)
    (mgr : BufferPoolManager R) : BufferPoolManager R :=
  slices.foldl (fun mgr slice => mgr.setFrame page m
    (memcpy (mgr.frame page m) (fpageOffset + slice.dst) (mgr.byteAt heap) slice.src slice.len)) mgr

variable [Replacer R]

/-- What `SetBlock(const BufferBlock&, ...)` does with one page: `Copy`, `DecRefCount(true)` and, if
asked, `FlushPage`. -/
def setBlockOfBody (heap : Bytes) (buf : BufferBlock) (fd : ℕ) (flush : Bool)
    (fuel fpageId fpageOffset blockSize bufSize : ℕ) (mgr : BufferPoolManager R) :
    Except Stop (ℕ × BufferPoolManager R) := do
  let (m, mgr) ← mgr.fetchPageSync fuel ⟨fd, fpageId⟩
  let (n, slices) ← buf.copy
    (if pageSize - fpageOffset > blockSize then blockSize else pageSize - fpageOffset) bufSize
  let mgr := mgr.copySlices heap ⟨fd, fpageId⟩ m fpageOffset slices
  let mgr := mgr.decRefCount ⟨fd, fpageId⟩ m true
  if flush then
    let (flushed, mgr) ← mgr.flushPage fpageId fd false
    check flushed
    return (n, mgr)
  else return (n, mgr)

/-- `SetBlock(const BufferBlock&, ...)`. -/
def setBlockOf (fuel : ℕ) (heap : Bytes) (buf : BufferBlock) (fileOffset blockSize fd : ℕ) (flush : Bool)
    (mgr : BufferPoolManager R) : Except Stop (BufferPoolManager R) :=
  blockLoop (setBlockOfBody heap buf fd flush) fuel (fpageIdOf fileOffset) (fileOffset % pageSize)
    blockSize 0 mgr

end model

open Function LawfulReplacer BufferPool DiskManager Fuel Machine

variable {R : Type}

section memory

variable {mgr : BufferPoolManager R} {heap : Bytes} {page : Page} {m : ℕ}

@[simp] theorem setFrame_frame (bytes : Bytes) : (mgr.setFrame page m bytes).frame page m = bytes := by
  simp [setFrame, BufferPoolManager.frame, setPool, BufferPoolManager.poolOf]

@[simp] theorem setFrame_setFrame (first second : Bytes) :
    (mgr.setFrame page m first).setFrame page m second = mgr.setFrame page m second := by
  simp [setFrame, setPool, BufferPoolManager.poolOf, BufferPoolManager.pool]

theorem byteAt_frame {i k r : ℕ} (pool : i < mgr.partitioner.numPartitions) (inside : k < mgr.poolSize)
    (small : r < pageSize) : mgr.byteAt heap (mgr.frameAddress i k + r) = (mgr.pools i).memory k r := by
  have frame : (mgr.frameAddress i k + r) / pageSize = i * mgr.poolSize + k := by
    rw [frameAddress, Nat.mul_comm, Nat.mul_add_div (by decide), Nat.div_eq_of_lt small, Nat.add_zero]
  have offset : (mgr.frameAddress i k + r) % pageSize = r := by
    rw [frameAddress, Nat.mul_add_mod_self_right, Nat.mod_eq_of_lt small]
  have positive : 0 < mgr.poolSize := Nat.zero_lt_of_lt inside
  have index : (i * mgr.poolSize + k) / mgr.poolSize = i := by
    rw [Nat.mul_comm, Nat.mul_add_div positive, Nat.div_eq_of_lt inside, Nat.add_zero]
  have within : (i * mgr.poolSize + k) % mgr.poolSize = k := by
    rw [Nat.mul_add_mod_self_right, Nat.mod_eq_of_lt inside]
  have below : mgr.frameAddress i k + r < mgr.frameMemory := by
    have frames : i * mgr.poolSize + k + 1 ≤ mgr.partitioner.numPartitions * mgr.poolSize := by
      have := Nat.mul_le_mul_right mgr.poolSize (Nat.succ_le_of_lt pool)
      rw [Nat.succ_mul] at this
      omega
    have bytes := Nat.mul_le_mul_right pageSize frames
    rw [Nat.succ_mul] at bytes
    exact (Nat.add_lt_add_left small _).trans_le bytes
  rw [byteAt, if_pos below, frame, offset, index, within]

theorem byteAt_heap {address : ℕ} (outside : mgr.frameMemory ≤ address) :
    mgr.byteAt heap address = heap address :=
  if_neg (Nat.not_lt.mpr outside)

/-- Copies that read, in every state of the destination frame they go through, the bytes of a buffer
do what one `memcpy` from it does. -/
theorem copySlices_tiles {address : ℕ → ℕ} {bytes : Bytes} {fpageOffset done stop : ℕ} {slices : List Slice}
    {start : ℕ} (tiles : BufferBlock.Tiles address slices start stop)
    (reads : ∀ n ≤ stop, ∀ i < stop, (mgr.setFrame page m
      (memcpy (mgr.frame page m) fpageOffset bytes done n)).byteAt heap (address i) = bytes (done + i)) :
    copySlices heap page m fpageOffset slices
        (mgr.setFrame page m (memcpy (mgr.frame page m) fpageOffset bytes done start)) =
      mgr.setFrame page m (memcpy (mgr.frame page m) fpageOffset bytes done stop) := by
  induction slices generalizing start with
  | nil =>
    obtain rfl : start = stop := tiles
    rfl
  | cons slice rest ih =>
    obtain ⟨rfl, source, later⟩ := tiles
    have bound := later.le
    rw [copySlices, List.foldl_cons, setFrame_frame, setFrame_setFrame]
    have copied : memcpy (memcpy (mgr.frame page m) fpageOffset bytes done slice.dst)
        (fpageOffset + slice.dst) ((mgr.setFrame page m
          (memcpy (mgr.frame page m) fpageOffset bytes done slice.dst)).byteAt heap) slice.src slice.len =
        memcpy (mgr.frame page m) fpageOffset bytes done (slice.dst + slice.len) := by
      funext i
      simp only [memcpy]
      split_ifs with now all all earlier
      · rw [source _ (by omega), reads _ (by omega) _ (by omega)]
        congr 1
        omega
      · omega
      · rfl
      · omega
      · omega
      · rfl
    rw [copied]
    exact ih later

theorem byteAt_setFrame_frame (address : ℕ) :
    (mgr.setFrame page m (mgr.frame page m)).byteAt heap address = mgr.byteAt heap address := by
  have same (j : ℕ) : ((mgr.setFrame page m (mgr.frame page m)).pools j).memory = (mgr.pools j).memory := by
    by_cases here : j = mgr.poolOf page
    · subst here
      simp [setFrame, setPool, BufferPoolManager.pool, BufferPoolManager.frame]
    · simp [setFrame, setPool, update_of_ne here]
  simp only [byteAt, same]
  rfl

/-- The copies of a piece that is not empty. -/
theorem copySlices_eq {address : ℕ → ℕ} {bytes : Bytes} {fpageOffset done stop : ℕ} {slices : List Slice}
    (tiles : BufferBlock.Tiles address slices 0 stop) (positive : 0 < stop)
    (reads : ∀ n ≤ stop, ∀ i < stop, (mgr.setFrame page m
      (memcpy (mgr.frame page m) fpageOffset bytes done n)).byteAt heap (address i) = bytes (done + i)) :
    copySlices heap page m fpageOffset slices mgr =
      mgr.setFrame page m (memcpy (mgr.frame page m) fpageOffset bytes done stop) := by
  have nothing : memcpy (mgr.frame page m) fpageOffset bytes done 0 = mgr.frame page m := by
    funext i
    exact if_neg (by omega)
  have all := copySlices_tiles tiles reads
  rw [nothing] at all
  rw [← all]
  cases slices with
  | nil =>
    obtain rfl : 0 = stop := tiles
    exact absurd positive (lt_irrefl 0)
  | cons slice rest =>
    rw [copySlices, copySlices, List.foldl_cons, List.foldl_cons, setFrame_frame, setFrame_setFrame]
    congr 3
    funext address
    exact (byteAt_setFrame_frame address).symm

end memory

variable [Replacer R] [LawfulReplacer R] {K : ℕ → ℕ → Prop} {content : Content}
  {mgr mgr' : BufferPoolManager R} {place : ℕ → ℕ → Place} {pins : ℕ → List (Page × ℕ)}
  {fd fileOffset blockSize : ℕ} {heap : Bytes} {block : BufferBlock}

omit [Replacer R] [LawfulReplacer R] in
theorem SameShape.frameMemory (shape : SameShape mgr mgr') : mgr'.frameMemory = mgr.frameMemory := by
  unfold BufferPoolManager.frameMemory
  rw [shape.partitioner, shape.poolSize]

/-- The bytes of a page in a range of a file. -/
def Hits (fd fileOffset blockSize : ℕ) (page : Page) (r : ℕ) : Prop :=
  page.fd = fd ∧ fileOffset ≤ page.position r ∧ page.position r < fileOffset + blockSize

/-- An address that `SetBlock` to a range may copy from: behind the frames, or of a byte outside of the
range of a page that the caller has pinned. -/
inductive Untouched (mgr : BufferPoolManager R) (pins : ℕ → List (Page × ℕ)) (fd fileOffset blockSize : ℕ) :
    ℕ → Prop
  | heap {address : ℕ} (outside : mgr.frameMemory ≤ address) : Untouched mgr pins fd fileOffset blockSize address
  | pinned {i m : ℕ} {page : Page} {r : ℕ} (pool : i < mgr.partitioner.numPartitions)
      (pin : (page, m) ∈ pins i) (small : r < pageSize) (apart : ¬ Hits fd fileOffset blockSize page r) :
      Untouched mgr pins fd fileOffset blockSize (mgr.frameAddress i m + r)

/-- The manager `mgr'` while `SetBlock` stores to a range, with the pins `held`: the bytes of the pages
that were pinned before are as they were, those of the range apart. -/
structure Stores (mgr : BufferPoolManager R) (pins : ℕ → List (Page × ℕ)) (fd fileOffset blockSize : ℕ)
    (mgr' : BufferPoolManager R) (place : ℕ → ℕ → Place) (held : ℕ → List (Page × ℕ)) : Prop where
  sound : Sound (fun _ _ => False) (fun _ _ => 0) mgr' place held
  quiet : AllQuiet mgr' place
  shape : SameShape mgr mgr'
  before : ∀ i, pins i ⊆ held i
  kept : ∀ i < mgr.partitioner.numPartitions, ∀ pin ∈ pins i, ∀ r < pageSize,
    ¬ Hits fd fileOffset blockSize pin.1 r → (mgr'.pools i).memory pin.2 r = (mgr.pools i).memory pin.2 r

/-- Where no position counts, any bytes will do. -/
theorem Sound.forget (sound : Sound K content mgr place pins) :
    Sound (fun _ _ => False) (fun _ _ => 0) mgr place pins :=
  { sound with coherent := fun _ _ => ⟨nofun, nofun, nofun, nofun⟩ }

/-- A store to any frame. -/
theorem Sound.setFrame (sound : Sound (fun _ _ => False) content mgr place pins) (page : Page) (m : ℕ)
    (bytes : Bytes) : Sound (fun _ _ => False) content (mgr.setFrame page m bytes) place pins := by
  have inside := mgr.poolOf_lt page
  have coherent (pool : BufferPool R) (place : ℕ → Place) : Coherent (fun _ _ => False) content pool place :=
    ⟨nofun, nofun, nofun, nofun⟩
  have after := sound.setPool inside
    (show SameFiles (mgr.pool (mgr.poolOf page)) ((mgr.pool (mgr.poolOf page)).withBytes m bytes) from
      ⟨rfl, rfl, rfl, fun _ => rfl, rfl⟩) (.refl _) ((sound.inv _ inside).withBytes m bytes)
    (sound.settled _ inside) (coherent _ _) fun _ _ _ => coherent _ _
  rwa [update_eq_self, update_eq_self] at after

theorem Stores.start (sound : Sound K content mgr place pins) (quiet : AllQuiet mgr place) :
    Stores mgr pins fd fileOffset blockSize mgr place pins :=
  ⟨sound.forget, quiet, .refl _, fun _ => List.Subset.refl _, fun _ _ _ _ _ _ _ => rfl⟩

section stores

variable {held : ℕ → List (Page × ℕ)} {page : Page} {m : ℕ}

/-- The page of a pinned frame is resident. -/
theorem Stores.resident (stores : Stores mgr pins fd fileOffset blockSize mgr' place held) {i : ℕ}
    (pool : i < mgr.partitioner.numPartitions) (pin : (page, m) ∈ pins i) :
    place i m = .resident page ∧ m < mgr'.poolSize := by
  rw [← stores.shape.partitioner] at pool
  have inv := stores.sound.inv i pool
  have here := (inv.pinned page m (stores.before i pin)).resolve_right
    ((stores.quiet i pool).not_orphan m page)
  refine ⟨here, Nat.lt_of_not_le fun past => ?_⟩
  have absent := (inv.absent m).mpr ((stores.sound.poolSize i pool).trans_le past)
  rw [here] at absent
  cases absent

theorem Stores.byteAt_eq (stores : Stores mgr pins fd fileOffset blockSize mgr' place held) {address : ℕ}
    (untouched : Untouched mgr pins fd fileOffset blockSize address) :
    mgr'.byteAt heap address = mgr.byteAt heap address := by
  have memory := stores.shape.frameMemory
  cases untouched with
  | heap outside => rw [byteAt_heap outside, byteAt_heap (memory.trans_le outside)]
  | @pinned i m page r pool pin small apart =>
    have inside := (stores.resident pool pin).2
    have same : mgr'.frameAddress i m = mgr.frameAddress i m := by
      unfold frameAddress
      rw [stores.shape.poolSize]
    rw [byteAt_frame pool (stores.shape.poolSize ▸ inside) small, ← same,
      byteAt_frame (stores.shape.partitioner ▸ pool) inside small, stores.kept i pool _ pin r small apart]

/-- A fetch pins the page of a piece. -/
theorem Stores.fetched (stores : Stores mgr pins fd fileOffset blockSize mgr' place pins)
    (room : ∀ i < mgr.partitioner.numPartitions, ∀ m, Room (pins i) m) (inFile : InFile mgr page)
    {fetched : BufferPoolManager R} (ran : Returns (fun fuel => mgr'.fetchPageSync fuel page) (m, fetched)) :
    ∃ place', place' (fetched.poolOf page) m = .resident page ∧
      Stores mgr pins fd fileOffset blockSize fetched place'
        (update pins (fetched.poolOf page) ((page, m) :: pins (fetched.poolOf page))) := by
  have pool := mgr'.poolOf_lt page
  rw [stores.shape.partitioner] at pool
  obtain ⟨place', here, quiet, shape, memory, sound⟩ :=
    stores.sound.fetched (stores.shape.inFile inFile) (room _ pool) ran
  rw [← shape.poolOf] at here sound
  refine ⟨place', here, sound, quiet stores.quiet, stores.shape.trans shape, fun i => ?_, ?_⟩
  · by_cases mine : i = fetched.poolOf page
    · subst mine
      rw [update_self]
      exact List.subset_cons_self ..
    · rw [update_of_ne mine]
      exact List.Subset.refl _
  · intro i pool pin member r small apart
    rw [memory i pin member]
    exact stores.kept i pool pin member r small apart

/-- A store to the part of a page in the range. -/
theorem Stores.setFrame (stores : Stores mgr pins fd fileOffset blockSize mgr' place held)
    (here : place (mgr'.poolOf page) m = .resident page) {bytes : Bytes}
    (same : ∀ r < pageSize, ¬ Hits fd fileOffset blockSize page r → bytes r = mgr'.frame page m r) :
    Stores mgr pins fd fileOffset blockSize (mgr'.setFrame page m bytes) place held := by
  have sound := stores.sound.setFrame page m bytes
  refine ⟨sound, stores.quiet, stores.shape.trans ⟨rfl, rfl, .refl _⟩, stores.before, ?_⟩
  rintro i pool ⟨other, k⟩ member r small apart
  refine Eq.trans ?_ (stores.kept i pool _ member r small apart)
  by_cases mine : i = mgr'.poolOf page
  · subst mine
    simp only [BufferPoolManager.setFrame, BufferPoolManager.setPool, update_self]
    by_cases self : k = m
    · subst self
      cases here.symm.trans (stores.resident pool member).1
      rw [update_self, same r small apart]
      rfl
    · rw [update_of_ne self]
      rfl
  · simp only [BufferPoolManager.setFrame, BufferPoolManager.setPool, update_of_ne mine]

/-- The end of the visit to a page. -/
theorem Stores.release (stores : Stores mgr pins fd fileOffset blockSize mgr' place
      (update pins (mgr'.poolOf page) ((page, m) :: pins (mgr'.poolOf page)))) :
    Stores mgr pins fd fileOffset blockSize (mgr'.decRefCount page m true) place pins := by
  have sound := stores.sound.decRefCount (show (page, m) ∈ _ by simp) true
  rw [update_self, List.erase_cons_head, update_idem, update_eq_self] at sound
  refine ⟨sound, stores.quiet, stores.shape.trans ⟨rfl, rfl, .refl _⟩, fun _ => List.Subset.refl _, ?_⟩
  intro i pool pin member r small apart
  refine Eq.trans ?_ (stores.kept i pool pin member r small apart)
  by_cases mine : i = mgr'.poolOf page
  · subst mine
    simp [BufferPoolManager.decRefCount, BufferPoolManager.setPool, BufferPoolManager.pool,
      BufferPool.decRefCount]
  · simp only [BufferPoolManager.decRefCount, BufferPoolManager.setPool, update_of_ne mine]

end stores

/-- Where the block fits, both overloads do the same with the page of a piece. -/
theorem Stores.visit (stores : Stores mgr pins fd fileOffset blockSize mgr' place pins)
    (room : ∀ i < mgr.partitioner.numPartitions, ∀ m, Room (pins i) m)
    (range : InRange mgr fd fileOffset blockSize) (whole : block.Whole) (size : block.size = blockSize)
    (fits : block.Fits (fileOffset % pageSize))
    (sources : ∀ i < blockSize, Untouched mgr pins fd fileOffset blockSize (block.address i))
    {done : ℕ} (left : done < blockSize) (start : done = 0 ∨ (fileOffset + done) % pageSize = 0) (fuel : ℕ) :
    setBlockBody (fun i => mgr.byteAt heap (block.address i)) fd false fuel ((fileOffset + done) / pageSize)
        ((fileOffset + done) % pageSize) (blockSize - done) done mgr' =
      setBlockOfBody heap block fd false fuel ((fileOffset + done) / pageSize)
        ((fileOffset + done) % pageSize) (blockSize - done) done mgr' ∧
    ∀ n mgr'', setBlockBody (fun i => mgr.byteAt heap (block.address i)) fd false fuel
        ((fileOffset + done) / pageSize) ((fileOffset + done) % pageSize) (blockSize - done) done mgr' =
          .ok (n, mgr'') →
      n = objectSize ((fileOffset + done) % pageSize) (blockSize - done) ∧
        ∃ place', Stores mgr pins fd fileOffset blockSize mgr'' place' pins := by
  have offset_lt : (fileOffset + done) % pageSize < pageSize := Nat.mod_lt _ (by decide)
  have bufSize : (if pageSize - (fileOffset + done) % pageSize > blockSize - done then blockSize - done
      else pageSize - (fileOffset + done) % pageSize) =
        objectSize ((fileOffset + done) % pageSize) (blockSize - done) := by
    unfold objectSize
    split_ifs <;> omega
  have positive := objectSize_pos offset_lt (Nat.sub_pos_of_lt left)
  have fits_left := objectSize_le ((fileOffset + done) % pageSize) (blockSize - done)
  have ends := @objectSize_add_le _ (blockSize - done) offset_lt
  set n := objectSize ((fileOffset + done) % pageSize) (blockSize - done)
  set page : Page := ⟨fd, (fileOffset + done) / pageSize⟩
  set buf : Bytes := fun i => mgr.byteAt heap (block.address i)
  unfold setBlockBody setBlockOfBody
  cases ran : mgr'.fetchPageSync fuel page with
  | error stop => exact ⟨rfl, nofun⟩
  | ok result =>
    obtain ⟨m, fetched⟩ := result
    obtain ⟨place', here, stores'⟩ := stores.fetched room (range.page left) ((fetchPageSync_stable _ _).returns ran)
    have partly (k : ℕ) (below : k ≤ n) := @Stores.setFrame _ _ _ _ _ _ _ _ _ _ _ _ _ stores' here
      (memcpy (fetched.frame page m) ((fileOffset + done) % pageSize) buf done k) fun r _ apart => by
        refine if_neg fun copied => apart ⟨rfl, ?_⟩
        have position : page.position r + _ = _ := position_add_mod fd (fileOffset + done) r
        change _ ≤ page.position r ∧ page.position r < _
        omega
    obtain ⟨slices, copied, tiles⟩ := whole.tiles fits (by omega) start ends positive
    have stored : copySlices heap page m ((fileOffset + done) % pageSize) slices fetched =
        fetched.setFrame page m
          (memcpy (fetched.frame page m) ((fileOffset + done) % pageSize) buf done n) :=
      copySlices_eq tiles positive fun k below i small =>
        (partly k below).byteAt_eq (sources (done + i) (by omega))
    refine ⟨?_, ?_⟩
    · simp only [bufSize, copied, ok_bind]
      change Except.ok (n, (fetched.setFrame page m _).decRefCount page m true) =
        Except.ok (n, (copySlices heap page m _ slices fetched).decRefCount page m true)
      rw [stored]
    · intro n' mgr'' ran
      cases ran
      exact ⟨rfl, place', (partly n le_rfl).release⟩

/-- Where the block fits, the overloads are the same function of the manager. -/
theorem Sound.setBlockOf_eq (sound : Sound K content mgr place pins) (quiet : AllQuiet mgr place)
    (room : ∀ i < mgr.partitioner.numPartitions, ∀ m, Room (pins i) m)
    (range : InRange mgr fd fileOffset blockSize) (whole : block.Whole) (size : block.size = blockSize)
    (fits : block.Fits (fileOffset % pageSize))
    (sources : ∀ i < blockSize, Untouched mgr pins fd fileOffset blockSize (block.address i)) (fuel : ℕ) :
    mgr.setBlock fuel (fun i => mgr.byteAt heap (block.address i)) fileOffset blockSize fd false =
      mgr.setBlockOf fuel heap block fileOffset blockSize fd false := by
  refine blockLoop_congr (fun done mgr' => (done = 0 ∨ (fileOffset + done) % pageSize = 0 ∨ done = blockSize) ∧
    ∃ place', Stores mgr pins fd fileOffset blockSize mgr' place' pins) range.bound ?_
    ⟨Or.inl rfl, place, .start sound quiet⟩ fuel
  rintro done left mgr' ⟨start, place', stores⟩ fuel
  obtain ⟨same, next⟩ := stores.visit room range whole size fits sources left
    (start.imp_right fun start => start.resolve_right left.ne) fuel
  refine ⟨same, fun n mgr'' visited => ?_⟩
  obtain ⟨rfl, after⟩ := next n mgr'' visited
  exact ⟨rfl, Or.inr (objectSize_next left), after⟩

/-- The memory in which one byte of a block is one and all others are zero. -/
def oneByte (block : BufferBlock) (i : ℕ) : Bytes := fun address => if address = block.address i then 1 else 0

/-- A visit of a range whose block lies behind the frames stores some bytes to its piece; to the
misplaced byte, if it is in the piece, a zero. -/
theorem Sound.visit_misplaced (sound : Sound K content mgr place pins)
    (quiet : AllQuiet mgr place) (spare : Spare mgr pins) (range : InRange mgr fd fileOffset blockSize)
    (whole : block.Whole) (many : 2 ≤ block.pageNum) (size : block.size = blockSize)
    (outside : ∀ data ∈ block.pageDatas, mgr.frameMemory ≤ data) (miss : block.Misplaced fileOffset)
    {done : ℕ} (left : done < blockSize) : ∃ mgr' place' bytes,
      Returns (fun fuel => setBlockOfBody (oneByte block (miss.done + miss.byte)) block fd false fuel
        ((fileOffset + done) / pageSize) ((fileOffset + done) % pageSize) (blockSize - done) done mgr)
        (objectSize ((fileOffset + done) % pageSize) (blockSize - done), mgr') ∧
      Sound (spliceKnown K fd (fileOffset + done)
          (objectSize ((fileOffset + done) % pageSize) (blockSize - done)))
        (splice content fd (fileOffset + done) bytes
          (objectSize ((fileOffset + done) % pageSize) (blockSize - done))) mgr' place' pins ∧
      AllQuiet mgr' place' ∧ SameShape mgr mgr' ∧
      (done = miss.done → miss.byte < objectSize ((fileOffset + done) % pageSize) (blockSize - done) ∧
        bytes miss.byte = 0) := by
  have offset_lt : (fileOffset + done) % pageSize < pageSize := Nat.mod_lt _ (by decide)
  have bufSize : (if pageSize - (fileOffset + done) % pageSize > blockSize - done then blockSize - done
      else pageSize - (fileOffset + done) % pageSize) =
        objectSize ((fileOffset + done) % pageSize) (blockSize - done) := by
    unfold objectSize
    split_ifs <;> omega
  have positive := objectSize_pos offset_lt (Nat.sub_pos_of_lt left)
  have fits_left := objectSize_le ((fileOffset + done) % pageSize) (blockSize - done)
  have ends := @objectSize_add_le _ (blockSize - done) offset_lt
  have piece : done = miss.done → objectSize ((fileOffset + done) % pageSize) (blockSize - done) =
      min pageSize (block.size - miss.done) := by
    rintro rfl
    unfold objectSize
    rw [miss.boundary, size]
    split_ifs <;> omega
  set n := objectSize ((fileOffset + done) % pageSize) (blockSize - done)
  set page : Page := ⟨fd, (fileOffset + done) / pageSize⟩
  set heap := oneByte block (miss.done + miss.byte)
  obtain ⟨slices, address, stop, copied, tiles, some, bound, near, wrong⟩ : ∃ slices address stop,
      block.copy n done = .ok (n, slices) ∧ BufferBlock.Tiles address slices 0 stop ∧ 0 < stop ∧ stop ≤ n ∧
      (∀ i < stop, ∃ data ∈ block.pageDatas, data ≤ address i) ∧
      (done = miss.done → miss.byte < stop ∧ heap (address miss.byte) = 0) := by
    by_cases here : done = miss.done
    · rw [piece here]
      refine ⟨miss.slices, miss.address, miss.stop, here ▸ miss.copy, miss.tiles,
        Nat.zero_lt_of_lt miss.filled, miss.bound, miss.near, fun _ => ⟨miss.filled, ?_⟩⟩
      exact if_neg miss.wrong
    · obtain ⟨slices, address, stop, copied, tiles, some, bound, near⟩ :=
        @BufferBlock.Whole.exists_copy _ whole many done n positive (by omega)
      exact ⟨slices, address, stop, copied, tiles, some, bound, near, fun same => absurd same here⟩
  obtain ⟨m, fetched, place', ran, here, quiet', shape, sound'⟩ :=
    sound.fetch quiet spare (range.page left)
  rw [← shape.poolOf] at here sound'
  set bytes := memcpy (fetched.frame page m) ((fileOffset + done) % pageSize)
    (fun i => heap (address (i - done))) done stop with bytes_eq
  have stored : copySlices heap page m ((fileOffset + done) % pageSize) slices fetched =
      fetched.setFrame page m bytes := by
    refine copySlices_eq tiles some fun k _ i small => ?_
    obtain ⟨data, member, below⟩ := near i small
    refine (@byteAt_heap _ (fetched.setFrame page m _) heap _
      (shape.frameMemory.trans_le ((outside data member).trans below))).trans ?_
    rw [Nat.add_sub_cancel_left]
  refine ⟨(fetched.setFrame page m bytes).decRefCount page m true, place',
    fun i => bytes ((fileOffset + done) % pageSize + i), ran.bind ?_, ?_, quiet',
    shape.trans ⟨rfl, rfl, .refl _⟩, fun same => ?_⟩
  · refine .congr (fun fuel => ?_) .const
    simp only [bufSize, copied, ok_bind]
    rw [← stored]
    rfl
  · refine sound'.storePiece here (shape.inRange (range.piece (by omega))) ends fun i apart => ?_
    rw [bytes_eq]
    exact if_neg (by omega)
  · obtain ⟨filled, zero⟩ := wrong same
    refine ⟨filled.trans_le bound, ?_⟩
    rw [bytes_eq]
    simp only [memcpy]
    rw [if_pos (by omega), Nat.add_sub_cancel_left, Nat.add_sub_cancel_left]
    exact zero

private theorem boundary_next {first second : ℕ} (after : first < second)
    (boundary : (fileOffset + first) % pageSize = 0) (aligned : (fileOffset + second) % pageSize = 0) :
    first + pageSize ≤ second := by
  unfold pageSize at *
  omega

/-- Where the block does not fit, a byte that is one in the block is stored as zero. -/
theorem Sound.setBlockOf_misplaced (sound : Sound K content mgr place pins)
    (quiet : AllQuiet mgr place) (spare : Spare mgr pins) (range : InRange mgr fd fileOffset blockSize)
    (whole : block.Whole) (many : 2 ≤ block.pageNum) (size : block.size = blockSize)
    (outside : ∀ data ∈ block.pageDatas, mgr.frameMemory ≤ data) (miss : block.Misplaced fileOffset) :
    ∃ mgr' K' content' place', Returns (fun fuel => mgr.setBlockOf fuel
        (oneByte block (miss.done + miss.byte)) block fileOffset blockSize fd false) mgr' ∧
      Sound K' content' mgr' place' pins ∧ AllQuiet mgr' place' ∧ SameShape mgr mgr' ∧
      K' fd (fileOffset + (miss.done + miss.byte)) ∧
      content' fd (fileOffset + (miss.done + miss.byte)) = 0 := by
  have boundary := miss.boundary
  have within := miss.filled.trans_le miss.bound
  obtain ⟨mgr', ran, _, K', content', place', sound', quiet', shape, zero⟩ := blockLoop_returns
    (fun done mgr' => (done = 0 ∨ (fileOffset + done) % pageSize = 0 ∨ done = blockSize) ∧
      ∃ K' content' place', Sound K' content' mgr' place' pins ∧ AllQuiet mgr' place' ∧
        SameShape mgr mgr' ∧ (miss.done + miss.byte < done → K' fd (fileOffset + (miss.done + miss.byte)) ∧
          content' fd (fileOffset + (miss.done + miss.byte)) = 0)) range.bound
    (fun done left mgr' ⟨start, K', content', place', sound', quiet', shape, zero⟩ => by
      obtain ⟨mgr'', place'', bytes, visited, sound'', quiet'', shape', wrong⟩ :=
        sound'.visit_misplaced quiet' (shape.spare spare) (shape.inRange range) whole many size
          (fun data member => shape.frameMemory.trans_le (outside data member)) miss left
      refine ⟨mgr'', visited, Or.inr (objectSize_next left), _, _, place'', sound'', quiet'',
        shape.trans shape', fun past => ?_⟩
      simp only [splice, spliceKnown, true_and]
      rcases Nat.lt_trichotomy done miss.done with before | same | after
      · have short := @objectSize_boundary _ _ _ blockSize before boundary
        omega
      · obtain ⟨inside, stored⟩ := wrong same
        refine ⟨Or.inr (by omega), ?_⟩
        rw [if_pos (by omega), ← same, ← Nat.add_assoc, Nat.add_sub_cancel_left, stored]
      · have earlier : miss.done + miss.byte < done := by
          have aligned : (fileOffset + done) % pageSize = 0 := by omega
          have next := boundary_next after boundary aligned
          have short := within.trans_le (min_le_left ..)
          omega
        rw [if_neg (by omega)]
        exact (zero earlier).imp_left Or.inl)
    ⟨Or.inl rfl, K, content, place, sound, quiet, .refl _, nofun⟩
  refine ⟨mgr', K', content', place', ran, sound', quiet', shape, zero ?_⟩
  have := within.trans_le (min_le_right ..)
  omega

section agree

omit [LawfulReplacer R] in
/-- `GetBlock` returns the same bytes from both managers. -/
def SameReads (mgr mgr' : BufferPoolManager R) : Prop :=
  ∀ fd fileOffset blockSize buf result,
    Returns (fun fuel => mgr.getBlock fuel buf fileOffset blockSize fd) result →
      ∃ result', Returns (fun fuel => mgr'.getBlock fuel buf fileOffset blockSize fd) result' ∧
        ∀ i < blockSize, result'.1 i = result.1 i

/-- Where `SetBlock` with the bytes of the block returns, so does `SetBlock` with the block, and
`GetBlock` sees the same files after it. -/
def Agree (mgr : BufferPoolManager R) (heap : Bytes) (block : BufferBlock) (fileOffset fd : ℕ) : Prop :=
  ∀ mgr', Returns (fun fuel => mgr.setBlock fuel (fun i => mgr.byteAt heap (block.address i)) fileOffset
      block.size fd false) mgr' →
    ∃ mgr'', Returns (fun fuel => mgr.setBlockOf fuel heap block fileOffset block.size fd false) mgr'' ∧
      SameReads mgr' mgr''

/-- The calls of a program that keeps pages pinned, page by page: the calls for blocks are sequences
of these. -/
inductive HeldStep : BufferPoolManager R × (ℕ → List (Page × ℕ)) →
    BufferPoolManager R × (ℕ → List (Page × ℕ)) → Prop
  | openFile {mgr mgr' : BufferPoolManager R} {pins : ℕ → List (Page × ℕ)} {fd : ℕ} (file : OsFile)
      (ran : mgr.openFile file = .ok (fd, mgr')) : HeldStep (mgr, pins) (mgr', pins)
  | resize {mgr mgr' : BufferPoolManager R} {pins : ℕ → List (Page × ℕ)} {fd newSize : ℕ}
      (bound : newSize < 2 ^ 64) (valid : mgr.disk.validFD fd = true)
      (ran : mgr.resize fd newSize bound = .ok mgr') : HeldStep (mgr, pins) (mgr', pins)
  | fetch {mgr mgr' : BufferPoolManager R} {pins : ℕ → List (Page × ℕ)} {page : Page} {m : ℕ}
      (inFile : InFile mgr page) (room : ∀ m, Room (pins (mgr.poolOf page)) m)
      (ran : Returns (fun fuel => mgr.fetchPageSync fuel page) (m, mgr')) :
      HeldStep (mgr, pins) (mgr', update pins (mgr.poolOf page) ((page, m) :: pins (mgr.poolOf page)))
  | store {mgr : BufferPoolManager R} {pins : ℕ → List (Page × ℕ)} {page : Page} {m : ℕ}
      (pin : (page, m) ∈ pins (mgr.poolOf page)) (bytes : Bytes) :
      HeldStep (mgr, pins) (mgr.setFrame page m bytes, pins)
  | release {mgr : BufferPoolManager R} {pins : ℕ → List (Page × ℕ)} {page : Page} {m : ℕ}
      (pin : (page, m) ∈ pins (mgr.poolOf page)) (isWrite : Bool) :
      HeldStep (mgr, pins) (mgr.decRefCount page m isWrite,
        update pins (mgr.poolOf page) ((pins (mgr.poolOf page)).erase (page, m)))

/-- A manager with its first file open, and no pin. -/
inductive HeldStart : BufferPoolManager R × (ℕ → List (Page × ℕ)) → Prop
  | init (part : Partitioner) (poolSize : ℕ) (memory : ℕ → ℕ → Bytes) (file : OsFile) :
      HeldStart (.init part poolSize memory file, fun _ => [])

/-- The states in which a program calls `SetBlock`, with the pages it has pinned. -/
abbrev HeldRun (state : BufferPoolManager R × (ℕ → List (Page × ℕ))) : Prop := Reach HeldStart HeldStep state

/-- The pools are between calls, whatever their bytes. -/
def Held (state : BufferPoolManager R × (ℕ → List (Page × ℕ))) : Prop :=
  ∃ place, Sound (fun _ _ => False) (fun _ _ => 0) state.1 place state.2 ∧ AllQuiet state.1 place

theorem HeldStart.held {state : BufferPoolManager R × (ℕ → List (Page × ℕ))} (start : HeldStart state) :
    Held state := by
  cases start with
  | init part poolSize memory file =>
    have sound := (opens_init part poolSize memory file).sound (@blank_sound R _ _ (fun _ _ => False) part poolSize memory)
    exact ⟨_, sound.forget, fun i _ => startPlace_quiet poolSize⟩

theorem HeldStep.held {state state' : BufferPoolManager R × (ℕ → List (Page × ℕ))} (before : Held state)
    (step : HeldStep state state') : Held state' := by
  obtain ⟨place, sound, quiet⟩ := before
  cases step with
  | openFile file ran =>
    obtain ⟨_, returned, opens⟩ := exists_openFile _ file
    cases returned.symm.trans ran
    refine ⟨place, (opens.sound sound).forget, ?_⟩
    rw [AllQuiet, opens.partitioner]
    exact quiet
  | resize bound valid ran =>
    obtain ⟨_, _, resizes⟩ := resize_returned ran
    refine ⟨place, (resizes.sound valid sound fun _ _ _ _ _ _ _ _ _ => False.elim).forget, ?_⟩
    rw [AllQuiet, resizes.partitioner]
    exact quiet
  | fetch inFile room ran =>
    obtain ⟨place', _, quiet', _, _, sound'⟩ := sound.fetched inFile room ran
    exact ⟨place', sound', quiet' quiet⟩
  | store pin bytes => exact ⟨place, sound.setFrame _ _ bytes, quiet⟩
  | release pin isWrite => exact ⟨place, sound.decRefCount pin isWrite, quiet⟩

theorem HeldRun.held {state : BufferPoolManager R × (ℕ → List (Page × ℕ))} (run : HeldRun state) :
    Held state :=
  run.invariant (fun _ start => start.held) fun _ _ before step => step.held before

theorem HeldRun.fetched {page : Page} {m fuel : ℕ} (run : HeldRun (mgr, pins)) (inFile : InFile mgr page)
    (room : ∀ m, Room (pins (mgr.poolOf page)) m) (ran : mgr.fetchPageSync fuel page = .ok (m, mgr')) :
    HeldRun (mgr', update pins (mgr.poolOf page) ((page, m) :: pins (mgr.poolOf page))) ∧
      SameShape mgr mgr' := by
  obtain ⟨place, sound, quiet⟩ := run.held
  have returns := (fetchPageSync_stable page mgr).returns ran
  obtain ⟨place', _, _, shape, _⟩ := sound.fetched inFile room returns
  exact ⟨run.step (.fetch inFile room returns), shape⟩

/-- `GetBlock` of one byte. -/
theorem Sound.getByte (sound : Sound K content mgr place pins) (quiet : AllQuiet mgr place)
    (spare : Spare mgr pins) {i : ℕ} (range : InRange mgr fd i 1) (known : K fd i) : ∃ result,
      Returns (fun fuel => mgr.getBlock fuel (fun _ => 0) i 1 fd) result ∧ result.1 0 = content fd i := by
  obtain ⟨buf, mgr', _, ran, _, _, _, read, _⟩ := sound.getBlock quiet spare range fun _ => 0
  exact ⟨_, ran, read 0 Nat.one_pos known⟩

/-- Where the block does not fit, the overloads differ in the misplaced byte. -/
theorem Agree.fits (sound : Sound K content mgr place pins) (quiet : AllQuiet mgr place)
    (spare : Spare mgr pins) (range : InRange mgr fd fileOffset block.size) (whole : block.Whole)
    (outside : ∀ data ∈ block.pageDatas, mgr.frameMemory ≤ data)
    (agree : ∀ heap, Agree mgr heap block fileOffset fd) : block.Fits (fileOffset % pageSize) := by
  by_contra misfit
  obtain ⟨miss⟩ := whole.misplaced misfit
  have many : 2 ≤ block.pageNum := Nat.le_of_not_lt fun few => misfit (Or.inl few)
  have filled := miss.filled.trans_le (miss.bound.trans (min_le_right ..))
  set i := miss.done + miss.byte with i_eq
  have inside : i < block.size := by omega
  have one : mgr.byteAt (oneByte block i) (block.address i) = 1 := by
    obtain ⟨data, member, below⟩ := whole.exists_address many inside
    rw [byteAt_heap ((outside data member).trans below)]
    exact if_pos rfl
  have byteRange : InRange mgr fd (fileOffset + i) 1 := range.piece inside
  obtain ⟨mgr₁, place₁, ran₁, sound₁, quiet₁, shape₁⟩ := sound.setBlock quiet spare range fun i' =>
    mgr.byteAt (oneByte block i) (block.address i')
  obtain ⟨mgr₂, K₂, content₂, place₂, ran₂, sound₂, quiet₂, shape₂, known₂, zero⟩ :=
    sound.setBlockOf_misplaced quiet spare range whole many rfl outside miss
  obtain ⟨_, returned, reads⟩ := agree _ mgr₁ ran₁
  cases returned.unique ran₂
  obtain ⟨result₁, get₁, byte₁⟩ := sound₁.getByte quiet₁ (shape₁.spare spare) (shape₁.inRange byteRange)
    (Or.inr ⟨rfl, by omega, by omega⟩)
  obtain ⟨result₂, get₂, byte₂⟩ := sound₂.getByte quiet₂ (shape₂.spare spare) (shape₂.inRange byteRange) known₂
  obtain ⟨_, got, same⟩ := reads _ _ _ _ _ get₁
  cases got.unique get₂
  have differ := same 0 Nat.one_pos
  rw [byte₁, byte₂, zero, splice, if_pos ⟨rfl, by omega, by omega⟩, Nat.add_sub_cancel_left, one] at differ
  cases differ

/-- Where the block fits, `SetBlock` with the block does what `SetBlock` with its bytes does; a block
behind the frames that does not fit stores another byte for some of them. -/
theorem setBlock_overloads_agree (run : HeldRun (mgr, pins)) (range : InRange mgr fd fileOffset block.size)
    (whole : block.Whole) (room : ∀ i < mgr.partitioner.numPartitions, ∀ m, Room (pins i) m) :
    (block.Fits (fileOffset % pageSize) →
      (∀ i < block.size, Untouched mgr pins fd fileOffset block.size (block.address i)) → ∀ heap fuel,
        mgr.setBlock fuel (fun i => mgr.byteAt heap (block.address i)) fileOffset block.size fd false =
          mgr.setBlockOf fuel heap block fileOffset block.size fd false ∧
        Agree mgr heap block fileOffset fd) ∧
    (Spare mgr pins → (∀ data ∈ block.pageDatas, mgr.frameMemory ≤ data) →
      (∀ heap, Agree mgr heap block fileOffset fd) → block.Fits (fileOffset % pageSize)) := by
  obtain ⟨place, sound, quiet⟩ := run.held
  refine ⟨fun fits sources heap fuel => ?_, fun spare outside => Agree.fits sound quiet spare range whole outside⟩
  have same (fuel : ℕ) := @Sound.setBlockOf_eq _ _ _ _ _ _ _ _ _ _ _ heap _ sound quiet room range whole rfl
    fits sources fuel
  refine ⟨same fuel, fun mgr' ran => ⟨mgr', ran.congr fun fuel => (same fuel).symm, ?_⟩⟩
  exact fun _ _ _ _ result got => ⟨result, got, fun _ _ => rfl⟩

theorem setBlockOf_stable {R : Type} [Replacer R] (heap : Bytes) (block : BufferBlock)
    (fileOffset blockSize fd : ℕ) (flush : Bool) (mgr : BufferPoolManager R) :
    Stable fun fuel => mgr.setBlockOf fuel heap block fileOffset blockSize fd flush := by
  refine blockLoop_stable (fun _ _ _ _ _ => ?_) _ _ _ _ _
  exact .bind (fetchPageSync_stable _ _) fun _ => .const _

/-- A file of four pages, each filled with its page id, behind one pool of four frames. -/
def fourPages : BufferPoolManager SieveReplacer_v3 :=
  .init ⟨0⟩ 4 (fun _ _ _ => 0) ⟨⟨16384, fun i => if i < 16384 then (i / 4096).toUInt8 else 0,
    fun _ past => if_neg (Nat.not_lt.mpr past)⟩, by decide⟩

theorem room_of_few {pins : List (Page × ℕ)} (few : pins.length < 4) (m : ℕ) : Room pins m := by
  have bound := @List.countP_le_length _ (fun pin : Page × ℕ => pin.2 = m) pins
  unfold Room
  omega

/-- A page of the file is pinned. -/
theorem fourPages_fetched {mgr mgr' : BufferPoolManager SieveReplacer_v3} {pins : ℕ → List (Page × ℕ)} {k m fuel : ℕ}
    (run : HeldRun (mgr, pins)) (shape : SameShape fourPages mgr) (below : k < 4) (few : (pins 0).length < 4)
    (ran : mgr.fetchPageSync fuel ⟨0, k⟩ = .ok (m, mgr')) : ∃ pins', pins' 0 = (⟨0, k⟩, m) :: pins 0 ∧
      HeldRun (mgr', pins') ∧ SameShape fourPages mgr' := by
  have inFile : InFile fourPages ⟨0, k⟩ :=
    ⟨show 0 < 2 ^ 13 by decide, rfl, show 16384 ≤ maxFileSize by decide, show k * 4096 < 16384 by omega⟩
  have pool : mgr.poolOf ⟨0, k⟩ = 0 := by
    rw [shape.poolOf]
    exact Nat.lt_one_iff.mp (fourPages.poolOf_lt ⟨0, k⟩)
  obtain ⟨after, same⟩ := run.fetched (shape.inFile inFile) (by rw [pool]; exact room_of_few few) ran
  rw [pool] at after
  exact ⟨_, update_self .., after, shape.trans same⟩

/-- The bytes of a pinned page in front of the pages 2 and 3 are out of reach of a `SetBlock` to these. -/
theorem fourPages_untouched {mgr : BufferPoolManager SieveReplacer_v3} {pins : ℕ → List (Page × ℕ)} {k m r : ℕ}
    (pinned : (⟨0, k⟩, m) ∈ pins 0) (early : k < 2) (small : r < pageSize) :
    Untouched mgr pins 0 8192 8192 (m * pageSize + r) := by
  have apart : ¬ Hits 0 8192 8192 ⟨0, k⟩ r := by
    rintro ⟨_, past, _⟩
    simp only [Page.position, pageSize] at past small
    omega
  have out := @Untouched.pinned _ mgr pins 0 8192 8192 0 m ⟨0, k⟩ r mgr.partitioner.numPartitions_pos pinned small apart
  rwa [frameAddress, Nat.zero_mul, Nat.zero_add] at out

/-- A block of the pages 0 and 1 of the file, which lie in the frames 0 and 1. -/
def besidePages : BufferBlock := ⟨8192, 0, [some ⟨0, ⟨0, 0⟩, false⟩, some ⟨4096, ⟨0, 1⟩, false⟩]⟩

theorem besidePages_address {i : ℕ} (inside : i < besidePages.size) : besidePages.address i = i := by
  have datas : besidePages.pageDatas = [0, pageSize] := rfl
  have bound : i < 2 * pageSize := inside
  have first : locInpage 0 = pageSize := rfl
  have second : locInpage pageSize = pageSize := rfl
  rw [BufferBlock.address, if_neg (by decide), datas, BufferBlock.locate, BufferBlock.locate, first, second]
  split_ifs <;> omega

/-- Two pinned pages that are neighbours in memory are stored to the two pages behind them. -/
theorem setBlock_overloads_agree_besidePages : ∃ (mgr : BufferPoolManager SieveReplacer_v3)
    (pins : ℕ → List (Page × ℕ)), HeldRun (mgr, pins) ∧ pins 0 = [(⟨0, 1⟩, 1), (⟨0, 0⟩, 0)] ∧
      Agree mgr (fun _ => 0) besidePages 8192 0 := by
  have values : (do
      let first ← fourPages.fetchPageSync 8 ⟨0, 0⟩
      let second ← first.2.fetchPageSync 8 ⟨0, 1⟩
      return (first.1, second.1)) = Except.ok (0, 1) := by
    decide +kernel
  obtain ⟨⟨first, mgr₁⟩, fetch₁, values⟩ := bind_eq_ok.mp values
  obtain ⟨⟨second, mgr₂⟩, fetch₂, values⟩ := bind_eq_ok.mp values
  obtain ⟨rfl, rfl⟩ := Prod.mk.inj (Except.ok.inj values)
  obtain ⟨pins₁, held₁, run, shape⟩ := fourPages_fetched (.init (.init _ _ _ _)) (.refl _) (by decide) (by decide) fetch₁
  obtain ⟨pins, held, run, shape⟩ := fourPages_fetched run shape (by decide) (by rw [held₁]; decide) fetch₂
  rw [held₁] at held
  have range : InRange mgr₂ 0 8192 besidePages.size := shape.inRange ⟨by decide, rfl, by decide, by decide⟩
  have whole : besidePages.Whole := ⟨by decide, by decide, fun _ => by decide, fun _ => by decide⟩
  have fits : besidePages.Fits (8192 % pageSize) := 
    Or.inr ⟨0, [4096], rfl, Or.inr ⟨rfl, .cons_cons rfl (.singleton _)⟩⟩
  have room (i : ℕ) (inside : i < mgr₂.partitioner.numPartitions) (m : ℕ) : Room (pins i) m := by
    rw [shape.partitioner] at inside
    obtain rfl : i = 0 := Nat.lt_one_iff.mp inside
    rw [held]
    exact room_of_few (by simp) m
  refine ⟨mgr₂, pins, run, held, ?_⟩
  refine ((setBlock_overloads_agree run range whole room).1 fits (fun i inside => ?_) _ 0).2
  have bound : i < 2 * pageSize := inside
  rw [besidePages_address inside]
  by_cases low : i < pageSize
  · have out := @fourPages_untouched mgr₂ pins 0 0 i (by rw [held]; decide) (by decide) low
    rwa [Nat.zero_mul, Nat.zero_add] at out
  · have out := @fourPages_untouched mgr₂ pins 1 1 (i - pageSize) (by rw [held]; decide) (by decide) (by omega)
    rwa [show 1 * pageSize + (i - pageSize) = i by omega] at out

/-- A block of the pages 0 and 1 of the file, which lie in the frames 0 and 2. -/
def apartPages : BufferBlock := ⟨8192, 0, [some ⟨0, ⟨0, 0⟩, false⟩, some ⟨8192, ⟨0, 2⟩, false⟩]⟩

/-- The second page is at twice the size of a page. -/
theorem apartPages_address {i : ℕ} (inside : i < apartPages.size) :
    apartPages.address i = if i < pageSize then i else pageSize + i := by
  have datas : apartPages.pageDatas = [0, 2 * pageSize] := rfl
  have first : locInpage 0 = pageSize := rfl
  have second : locInpage (2 * pageSize) = pageSize := rfl
  have size : apartPages.size = 2 * pageSize := rfl
  rw [BufferBlock.address, if_neg (by decide), datas, BufferBlock.locate, BufferBlock.locate, first, second]
  split_ifs <;> omega

/-- `SetBlock` with a block whose pages are not neighbours in memory: its second page is copied from
behind its first. -/
theorem setBlock_overloads_differ : ∃ (mgr : BufferPoolManager SieveReplacer_v3) (pins : ℕ → List (Page × ℕ))
    (heap : Bytes), HeldRun (mgr, pins) ∧ Spare mgr pins ∧ InRange mgr 0 8192 apartPages.size ∧
      apartPages.Whole ∧
      (∀ i < apartPages.size, Untouched mgr pins 0 8192 apartPages.size (apartPages.address i)) ∧
      ¬ Agree mgr heap apartPages 8192 0 := by
  have values : (do
      let first ← fourPages.fetchPageSync 8 ⟨0, 0⟩
      let second ← first.2.fetchPageSync 8 ⟨0, 2⟩
      let third ← second.2.fetchPageSync 8 ⟨0, 1⟩
      let mgr := third.2.decRefCount ⟨0, 2⟩ 1 false
      let plain ← mgr.setBlock 8 (fun i => mgr.byteAt (fun _ => 0) (apartPages.address i)) 8192 8192 0 false
      let copied ← mgr.setBlockOf 8 (fun _ => 0) apartPages 8192 8192 0 false
      let got ← plain.getBlock 8 (fun _ => 0) 12288 1 0
      let got' ← copied.getBlock 8 (fun _ => 0) 12288 1 0
      return ([first.1, second.1, third.1], got.1 0, got'.1 0)) = Except.ok ([0, 1, 2], 1, 0) := by
    decide +kernel
  obtain ⟨⟨first, mgr₁⟩, fetch₁, values⟩ := bind_eq_ok.mp values
  obtain ⟨⟨second, mgr₂⟩, fetch₂, values⟩ := bind_eq_ok.mp values
  obtain ⟨⟨third, mgr₃⟩, fetch₃, values⟩ := bind_eq_ok.mp values
  obtain ⟨plain, set, values⟩ := bind_eq_ok.mp values
  obtain ⟨copied, setOf, values⟩ := bind_eq_ok.mp values
  obtain ⟨⟨bytes, plain'⟩, get, values⟩ := bind_eq_ok.mp values
  obtain ⟨⟨bytes', copied'⟩, get', values⟩ := bind_eq_ok.mp values
  obtain ⟨frames, values⟩ := Prod.mk.inj (Except.ok.inj values)
  obtain ⟨one, zero⟩ := Prod.mk.inj values
  dsimp only at one zero
  simp only [List.cons.injEq, and_true] at frames
  obtain ⟨rfl, rfl, rfl⟩ := frames
  obtain ⟨pins₁, held₁, run, shape⟩ := fourPages_fetched (.init (.init _ _ _ _)) (.refl _) (by decide) (by decide) fetch₁
  obtain ⟨pins₂, held₂, run, shape⟩ := fourPages_fetched run shape (by decide) (by rw [held₁]; decide) fetch₂
  obtain ⟨pins₃, held₃, run, shape⟩ :=
    fourPages_fetched run shape (by decide) (by rw [held₂, held₁]; decide) fetch₃
  rw [held₂, held₁] at held₃
  have pool : mgr₃.poolOf ⟨0, 2⟩ = 0 := by
    rw [shape.poolOf]
    exact Nat.lt_one_iff.mp (fourPages.poolOf_lt ⟨0, 2⟩)
  have run := run.step (@HeldStep.release _ _ _ _ ⟨0, 2⟩ 1 (by rw [pool, held₃]; simp) false)
  rw [pool, held₃] at run
  have shape : SameShape fourPages (mgr₃.decRefCount ⟨0, 2⟩ 1 false) := shape.trans ⟨rfl, rfl, .refl _⟩
  set mgr := mgr₃.decRefCount ⟨0, 2⟩ 1 false
  obtain ⟨pins, held, run⟩ : ∃ pins : ℕ → List (Page × ℕ), pins 0 = [(⟨0, 1⟩, 2), (⟨0, 0⟩, 0)] ∧
      HeldRun (mgr, pins) := ⟨_, update_self .., run⟩
  refine ⟨mgr, pins, fun _ => 0, run, ?_, ?_, ?_, ?_, ?_⟩
  · apply shape.spare
    intro i inside
    obtain rfl : i = 0 := Nat.lt_one_iff.mp inside
    rw [held]
    exact ⟨show 2 < 4 by decide, room_of_few (by simp)⟩
  · exact shape.inRange ⟨by decide, rfl, by decide, by decide⟩
  · exact ⟨by decide, by decide, fun _ => by decide, fun _ => by decide⟩
  · intro i inside
    have bound : i < 2 * pageSize := inside
    rw [apartPages_address inside]
    split_ifs with low
    · have out := @fourPages_untouched mgr pins 0 0 i (by rw [held]; decide) (by decide) low
      rwa [Nat.zero_mul, Nat.zero_add] at out
    · have out := @fourPages_untouched mgr pins 1 2 (i - pageSize) (by rw [held]; decide) (by decide) (by omega)
      rwa [show 2 * pageSize + (i - pageSize) = pageSize + i by omega] at out
  · intro agree
    obtain ⟨_, ran, reads⟩ := agree plain (Stable.returns (setBlock_stable _ _ _ _ _ _) set)
    cases ran.unique (Stable.returns (setBlockOf_stable _ _ _ _ _ _ _) setOf)
    obtain ⟨_, got, same⟩ := reads _ _ _ _ _ (Stable.returns (getBlock_stable _ _ _ _ _) get)
    cases got.unique (Stable.returns (getBlock_stable _ _ _ _ _) get')
    have differ := same 0 Nat.one_pos
    dsimp only at differ
    rw [one, zero] at differ
    cases differ

end agree

end Gbp.BufferPoolManager
