import GraphBufferPool.Manager.ReadRuns

/-! # A file that is closed, and a copy of it that is opened

The bytes of the copy are those of the file, but its pages are not cached, and every frame that held a page of the file
is an orphan. So the pages of the copy can be read as long as `Victim` comes upon no frame of the file.
-/

namespace Gbp

open Function LawfulReplacer DiskManager Fuel Refill

/-- Once the file is closed, frames are found for `n` pages: the free ones, then those that `Victim` takes first. -/
def BufferPool.RoomFor (pool : BufferPool SieveReplacer_v3) (fd n : ℕ) : Prop :=
  (pool.freeList ≠ [] ∨ pool.victims ≠ []) ∧ ∀ m ∈ pool.victims.take (n - pool.freeList.length),
    (pool.pageTable.ptes m).page.fd ≠ fd ∧ pool.pageTable.word? (pool.pageTable.ptes m).page ≠ none

instance (pool : BufferPool SieveReplacer_v3) (fd n : ℕ) : Decidable (pool.RoomFor fd n) :=
  inferInstanceAs (Decidable (_ ∧ _))

namespace BufferPool

variable {R : Type} [Replacer R] [LawfulReplacer R] {place place' : ℕ → Place} {pins pins' : List (Page × ℕ)} {fd m : ℕ}

/-- Pools with the same free frames have free lists of the same length. -/
theorem freeList_length {pool pool' : BufferPool R} (inv : Inv pool place pins) (inv' : Inv pool' place' pins')
    (same : ∀ m, place' m = .free ↔ place m = .free) : pool'.freeList.length = pool.freeList.length := by
  refine ((List.perm_ext_iff_of_nodup inv'.freeNodup inv.freeNodup).mpr fun m => ?_).length_eq
  rw [inv'.free, inv.free, same]

/-- The frames that `Victim` may still take once the file is closed. -/
theorem Rests.usable_closed {pool : BufferPool SieveReplacer_v3} (rests : Rests pool place pins)
    (tracked : m ∈ pool.replacer.list.nodes) : Unorphaned (fun m => (place m).closed fd) m ↔
      (pool.pageTable.ptes m).page.fd ≠ fd ∧ pool.pageTable.word? (pool.pageTable.ptes m).page ≠ none := by
  have closed : Unorphaned (fun m => (place m).closed fd) m ↔ ∀ page, (place m).closed fd ≠ .orphan page := Iff.rfl
  rcases rests.resident_or_orphan tracked with ⟨page, here⟩ | ⟨page, here⟩
  · rw [closed, here, rests.inv.described m page (by simp [here, Place.page?]), rests.inv.word?_resident here,
      Place.closed]
    split_ifs with same
    · exact iff_of_false (fun usable => usable page rfl) fun both => both.1 same
    · exact iff_of_true (by simp) ⟨same, by simp⟩
  · rw [closed, here, rests.inv.described m page (by simp [here, Place.page?]), rests.inv.word?_orphan here]
    exact iff_of_false (fun usable => usable page rfl) fun both => both.2 rfl

/-- Before the file is closed a page of it can be read as well. -/
theorem RoomFor.canRead {pool : BufferPool SieveReplacer_v3} {n k : ℕ} (room : pool.RoomFor fd n) (positive : 0 < n)
    (rests : Rests pool place pins) : CanRead (Unorphaned place) k (rests.cache fd) := by
  refine Or.inr (or_iff_not_imp_left.mpr fun full => ?_)
  have full : pool.freeList = [] := not_not.mp full
  obtain ⟨m, rest, front⟩ := List.exists_cons_of_ne_nil (room.1.resolve_left (not_not.mpr full))
  refine ⟨m, rest, front, fun page orphan => ?_⟩
  have first : m ∈ pool.victims.take (n - pool.freeList.length) := by
    rw [full, List.length_nil, front, ← Nat.succ_pred_eq_of_pos positive]
    exact List.mem_cons_self
  have described := rests.inv.described m page (by simp [orphan, Place.page?])
  exact (room.2 m first).2 (by rw [described]; exact rests.inv.word?_orphan orphan)

end BufferPool

namespace BufferPoolManager

open BufferPool

section reopen

variable {R : Type} [Replacer R] [LawfulReplacer R] {K : ℕ → ℕ → Prop} {F : ℕ → Prop} {content : Content}
  {mgr : BufferPoolManager R} {place : ℕ → ℕ → Place} {pins : ℕ → List (Page × ℕ)} {fd : ℕ}

/-- The manager after the file is closed and a copy of it is opened. -/
structure Reopens (K : ℕ → ℕ → Prop) (content : Content) (mgr : BufferPoolManager R) (place : ℕ → ℕ → Place)
    (pins : ℕ → List (Page × ℕ)) (fd : ℕ) (copy : OsFile) (mgr' : BufferPoolManager R) : Prop where
  caches : Caches (fun other i => other ≠ fd ∧ K other i) (fun _ => False)
    (opened content mgr.disk.files.length copy.1) mgr' (fun i m => (place i m).closed fd) pins
  partitioner : mgr'.partitioner = mgr.partitioner
  replacer : ∀ i < mgr.partitioner.numPartitions, (mgr'.pools i).replacer = (mgr.pools i).replacer
  valid : mgr'.disk.validFD mgr.disk.files.length = true
  size : mgr'.disk.getFileSizeFast mgr.disk.files.length = mgr.disk.getFileSizeFast fd
  byte : ∀ i < mgr.disk.getFileSizeFast fd, copy.1.byte i = content fd i

/-- `CloseFile` returns, and so does `OpenFile` of a copy. -/
theorem Caches.reopen (caches : Caches K F content mgr place pins) (watched : F fd) (range : InRange mgr fd 0 0)
    (unheld : Unheld pins fd) :
    ∃ mid, mgr.closeFile fd = .ok mid ∧ mid.disk.files.length = mgr.disk.files.length ∧
      (mid.disk.file fd).length = mgr.disk.getFileSizeFast fd ∧ ∀ copy : OsFile, copy.1 = mid.disk.file fd →
        ∃ mgr', mid.openFile copy = .ok (mgr.disk.files.length, mgr') ∧
          Reopens K content mgr place pins fd copy mgr' := by
  obtain ⟨mid, ran, closes, closed⟩ := caches.closeFile range unheld
  have length : (mid.disk.file fd).length = mgr.disk.getFileSizeFast fd :=
    (closes.exact fd (caches.exact fd watched)).trans (closes.size fd)
  refine ⟨mid, ran, closes.length, length, fun copy same => ?_⟩
  obtain ⟨mgr', returned, opens⟩ := exists_openFile mid copy
  have caches' := (closed.openFile opens).mono fun _ => False.elim
  rw [closes.length] at returned caches'
  refine ⟨mgr', returned, caches', ?_, fun i inside => ?_, ?_, ?_, fun i inside => ?_⟩
  · rw [opens.partitioner, closes.partitioner]
  · rw [opens.pools i (closes.partitioner ▸ inside)]
    exact closeFile_replacers ran i inside
  · rw [opens.disk, openFile_validFD, if_pos closes.length.symm]
  · rw [opens.disk, openFile_size, if_pos closes.length.symm, same, length]
  · rw [same]
    exact closes.byte i inside (caches.known fd (Or.inr range.valid) i)

/-- The handle of the copy is new: no one holds one of its pages, and none is cached. -/
theorem Caches.fresh (caches : Caches K F content mgr place pins) {i : ℕ} (inside : i < mgr.partitioner.numPartitions) :
    (∀ m page, place i m = .resident page → page.fd ≠ mgr.disk.files.length) ∧
      ∀ pin ∈ pins i, pin.1.fd ≠ mgr.disk.files.length := by
  have inv := caches.sound.inv i inside
  have resident (m : ℕ) (page : Page) (here : place i m = .resident page) : page.fd ≠ mgr.disk.files.length :=
    (lt_of_validFD (inv.owned m page (Or.inl here)).valid).ne
  refine ⟨resident, fun ⟨page, m⟩ member => ?_⟩
  rcases inv.pinned page m member with here | orphan
  · exact resident m page here
  · have gone := (List.getElem?_eq_some_iff.mp (inv.gone m page orphan)).1
    change page.fd < (mgr.pools i).pageTable.shape.length at gone
    rw [caches.sound.length i inside] at gone
    exact gone.ne

end reopen

variable {K : ℕ → ℕ → Prop} {F : ℕ → Prop} {content : Content} {mgr mgr' : BufferPoolManager SieveReplacer_v3}
  {place : ℕ → ℕ → Place} {pins : ℕ → List (Page × ℕ)} {fd i : ℕ} {copy : OsFile}

/-- The pools of the pages of the copy are those of the pages of the file. -/
theorem Reopens.pagesIn_eq (reopens : Reopens K content mgr place pins fd copy mgr') :
    mgr'.pagesIn mgr.disk.files.length i = mgr.pagesIn fd i := by
  have same (k : ℕ) : mgr'.poolOf ⟨mgr.disk.files.length, k⟩ = mgr.poolOf ⟨fd, k⟩ := by
    rw [BufferPoolManager.poolOf, BufferPoolManager.poolOf, reopens.partitioner]
  simp only [pagesIn, same, fpageNum, reopens.size]

/-- What a pool has for the pages of the copy, in terms of the pool before the file is closed. -/
theorem Reopens.fits_iff (reopens : Reopens K content mgr place pins fd copy mgr')
    (caches : Caches K F content mgr place pins) (inside : i < mgr.partitioner.numPartitions)
    (inside' : i < mgr'.partitioner.numPartitions) (pages : Finset ℕ) :
    Fits (Unorphaned fun m => (place i m).closed fd) pages (reopens.caches.cache inside' mgr.disk.files.length) ↔
      (mgr.pool i).RoomFor fd pages.card := by
  have rests := caches.rests inside
  have rests' := reopens.caches.rests inside'
  have free := freeList_length rests.inv rests'.inv fun m => Place.closed_eq_free
  have victims : (mgr'.pool i).victims = (mgr.pool i).victims := by
    rw [rests'.victims_eq, rests.victims_eq]
    exact congrArg (fun r => (SieveReplacer_v3.evictionOrder r).filter _) (reopens.replacer i inside)
  have empty : (mgr'.pool i).freeList ≠ [] ↔ (mgr.pool i).freeList ≠ [] := by
    rw [← List.length_pos_iff, free, List.length_pos_iff]
  change (((mgr'.pool i).freeList ≠ [] ∨ (mgr'.pool i).victims ≠ []) ∧
    ∀ m ∈ (mgr'.pool i).victims.take (pages.card - (mgr'.pool i).freeList.length), _) ↔ _
  rw [empty, victims, free]
  refine and_congr_right fun _ => forall₂_congr fun m member => rests.usable_closed ?_
  exact (rests.mem_victims.mp (List.mem_of_mem_take member)).1

/-- The handle of the copy. -/
theorem Reopens.range (reopens : Reopens K content mgr place pins fd copy mgr') (range : InRange mgr fd 0 0)
    (few : mgr.disk.files.length < 2 ^ 13) : InRange mgr' mgr.disk.files.length 0 0 :=
  ⟨few, reopens.valid, reopens.size.trans_le range.small, Nat.zero_le _⟩

/-- No one holds a page of the copy, and none is cached. -/
theorem Reopens.fresh (reopens : Reopens K content mgr place pins fd copy mgr')
    (caches : Caches K F content mgr place pins)
    {i : ℕ} (inside : i < mgr'.partitioner.numPartitions) :
    (∀ m page, (place i m).closed fd = .resident page → page.fd ≠ mgr.disk.files.length) ∧
      ∀ pin ∈ pins i, pin.1.fd ≠ mgr.disk.files.length := by
  rw [reopens.partitioner] at inside
  obtain ⟨resident, unheld⟩ := caches.fresh inside
  exact ⟨fun m page here => resident m page (Place.closed_eq_resident.mp here).1, unheld⟩

/-- The pages of the copy can be read in any order, as often as one likes, exactly if the pool of each page has frames
for all pages of the file that fall to it. -/
theorem Reopens.alwaysServes_iff (reopens : Reopens K content mgr place pins fd copy mgr')
    (caches : Caches K F content mgr place pins) (range : InRange mgr fd 0 0) (few : mgr.disk.files.length < 2 ^ 13)
    (room : ∀ i < mgr.partitioner.numPartitions, ∀ m, Room (pins i) m) :
    AlwaysServes (Finset.range (mgr'.fpageNum mgr.disk.files.length)) (FileRead mgr.disk.files.length) mgr' ↔
      ∀ k < mgr.fpageNum fd, (mgr.pool (mgr.poolOf ⟨fd, k⟩)).RoomFor fd (mgr.pagesIn fd (mgr.poolOf ⟨fd, k⟩)).card := by
  rw [reopens.caches.alwaysServes_iff (reopens.range range few) (reopens.partitioner ▸ room)
    (fun i inside => (reopens.fresh caches inside).2) fun i inside => (reopens.fresh caches inside).1]
  have pages : mgr'.fpageNum mgr.disk.files.length = mgr.fpageNum fd := by rw [fpageNum, fpageNum, reopens.size]
  rw [pages]
  refine forall₂_congr fun k _ => ?_
  have same : mgr'.poolOf ⟨mgr.disk.files.length, k⟩ = mgr.poolOf ⟨fd, k⟩ := by
    rw [BufferPoolManager.poolOf, BufferPoolManager.poolOf, reopens.partitioner]
  have inside' := mgr'.poolOf_lt ⟨mgr.disk.files.length, k⟩
  rw [reopens.fits_iff caches (reopens.partitioner ▸ inside') inside', reopens.pagesIn_eq, same]

end BufferPoolManager

end Gbp
