import GraphBufferPool.Pool.BufferPool
import GraphBufferPool.Lib.Update

/-! # The place of each frame between calls

The invariant of a pool run by one thread gives every frame one place: in the free list, resident,
left locked by a flush, left over from a deregistered file, or taken by a fetch that has not ended.
The free list, the mappings, the entries and the replacer all agree with the place, and the
reference count of a resident frame is the number of its outstanding pins.
-/

namespace Gbp.BufferPool

open Function LawfulReplacer

/-- The place of a frame. -/
inductive Place
  | absent
  | free
  | resident (page : Page)
  | stuck (page : Page)
  | orphan (page : Page)
  | loading (page : Page)
deriving DecidableEq

namespace Place

/-- The page that the entry of a frame in this place describes. -/
def page? : Place → Option Page
  | resident page | stuck page | orphan page => some page
  | _ => none

/-- The mapping of the page is BUSY because of a frame in this place. -/
def Locks (place : Place) (page : Page) : Prop := place = stuck page ∨ place = loading page

@[simp] theorem locks_free (page : Page) : ¬ free.Locks page := by simp [Locks]

@[simp] theorem locks_resident (other page : Page) : ¬ (resident other).Locks page := by simp [Locks]

@[simp] theorem locks_orphan (other page : Page) : ¬ (orphan other).Locks page := by simp [Locks]

@[simp] theorem locks_loading (other page : Page) : (loading other).Locks page ↔ page = other := by
  simp [Locks, eq_comm]

@[simp] theorem locks_stuck (other page : Page) : (stuck other).Locks page ↔ page = other := by
  simp [Locks, eq_comm]

end Place

section owns

variable {R : Type}

/-- The pages the manager hands to this pool: of its partition, in an open file whose handle fits
the entry, with a mapping. -/
structure Owns (pool : BufferPool R) (page : Page) : Prop where
  partition : pool.pageTable.partitioner.getPartitionId page.fpageId = pool.poolId
  fpageId : page.fpageId < fpageIdRange
  handle : page.fd < 2 ^ 13
  valid : pool.disk.validFD page.fd = true
  registered : pool.pageTable.word? page ≠ none

variable {pool : BufferPool R} {page other : Page}

/-- Two pages of a pool with one slot are the same page. -/
theorem Owns.eq_of_sameSlot (owns : pool.Owns page) (ownsOther : pool.Owns other)
    (same : pool.pageTable.SameSlot page other) : page = other := by
  obtain ⟨fd, fpageId⟩ := page
  obtain ⟨fd', fpageId'⟩ := other
  obtain ⟨rfl, sameSlot⟩ := same
  have sameId : fpageId = fpageId' := pool.pageTable.partitioner.slot_injective
    (owns.partition.trans ownsOther.partition.symm) sameSlot
  rw [sameId]

/-- A store to the mapping of one page leaves the others alone. -/
theorem Owns.setWord_word? (owns : pool.Owns page) (ownsOther : pool.Owns other) (word : MapWord) :
    (pool.pageTable.setWord page word).word? other =
      if other = page then some word else pool.pageTable.word? other := by
  split_ifs with same
  · subst same
    obtain ⟨old, here⟩ := Option.ne_none_iff_exists'.mp owns.registered
    exact PageTable.setWord_word?_self here
  · exact PageTable.setWord_word?_of_not fun slot => same (owns.eq_of_sameSlot ownsOther slot).symm

end owns

variable {R : Type} [Replacer R] [LawfulReplacer R]

/-- The invariant between calls. -/
structure Inv (pool : BufferPool R) (place : ℕ → Place) (pins : List (Page × ℕ)) : Prop where
  absent : ∀ m, place m = .absent ↔ pool.poolSize ≤ m
  capacity : capacity pool.replacer = pool.poolSize
  calm : Calm pool.replacer
  free : ∀ m, m ∈ pool.freeList ↔ place m = .free
  freeNodup : pool.freeList.Nodup
  tracked : ∀ m page, (place m).page? = some page → m ∈ frames pool.replacer
  known : ∀ m ∈ frames pool.replacer, m < pool.poolSize
  mapped : ∀ page, pool.Owns page → ∀ m,
    pool.pageTable.word? page = some (.frame m) ↔ place m = .resident page
  locked : ∀ page, pool.Owns page →
    (pool.pageTable.word? page = some .busy ↔ ∃ m, (place m).Locks page)
  lockedOnce : ∀ m m' page, (place m).Locks page → (place m').Locks page → m = m'
  owned : ∀ m page, place m = .resident page ∨ (place m).Locks page → pool.Owns page
  gone : ∀ m page, place m = .orphan page → pool.pageTable.shape[page.fd]? = some none
  described : ∀ m page, (place m).page? = some page → (pool.pageTable.ptes m).page = page
  settled : ∀ m page, place m = .resident page →
    (pool.pageTable.ptes m).busy = false ∧ (pool.pageTable.ptes m).initialized = true
  stuck : ∀ m page, place m = .stuck page → (pool.pageTable.ptes m).refCount = 0
  counted : ∀ m page, place m = .resident page ∨ place m = .orphan page →
    (pool.pageTable.ptes m).refCount = pins.countP fun pin => pin.2 = m
  pinned : ∀ page m, (page, m) ∈ pins → place m = .resident page ∨ place m = .orphan page

/-- The replacer tracks no free frame and none that a fetch has taken. -/
def Strict (pool : BufferPool R) (place : ℕ → Place) : Prop :=
  ∀ m ∈ frames pool.replacer, (place m).page? ≠ none

/-- The count of frame `m` has room for one more pin. -/
def Room (pins : List (Page × ℕ)) (m : ℕ) : Prop := (pins.countP fun pin => pin.2 = m) + 1 < 2 ^ 16

variable {pool : BufferPool R} {place : ℕ → Place} {pins : List (Page × ℕ)} {page : Page} {m : ℕ}

/-- Where every frame is in use and no fetch is in progress, the replacer tracks exactly the used
frames. -/
theorem Inv.strict_of_full (inv : Inv pool place pins) (full : pool.freeList = [])
    (quiet : ∀ m page, place m ≠ .loading page) : Strict pool place := by
  intro m linked
  have inside := inv.known m linked
  cases here : place m with
  | absent => exact absurd ((inv.absent m).mp here) (by omega)
  | free =>
    have := (inv.free m).mpr here
    simp [full] at this
  | loading page => exact absurd here (quiet m page)
  | resident page | stuck page | orphan page => simp [Place.page?]

/-- A pool whose frames are all in use has a ready replacer. -/
theorem Inv.ready_of_full (inv : Inv pool place pins) (full : pool.freeList = [])
    (quiet : ∀ m page, place m ≠ .loading page) : Ready pool.replacer := by
  apply ready_of_calm _ inv.calm
  intro m inside
  rw [inv.capacity] at inside
  cases here : place m with
  | absent => exact absurd ((inv.absent m).mp here) (by omega)
  | free =>
    have := (inv.free m).mpr here
    simp [full] at this
  | loading page => exact absurd here (quiet m page)
  | resident page | stuck page | orphan page => exact inv.tracked m page (by simp [here, Place.page?])

/-- The page of a resident frame, as the code finds it. -/
theorem Inv.word?_resident (inv : Inv pool place pins) (here : place m = .resident page) :
    pool.pageTable.word? page = some (.frame m) :=
  (inv.mapped page (inv.owned m page (Or.inl here)) m).mpr here

/-- The page of an orphaned frame, as the code finds it. -/
theorem Inv.word?_orphan (inv : Inv pool place pins) (here : place m = .orphan page) :
    pool.pageTable.word? page = none := by
  rw [PageTable.word?_eq_none_iff]
  intro n there
  cases (inv.gone m page here).symm.trans there

/-- The mapping of an owned page names a frame, is BUSY or is empty. -/
theorem Inv.word?_cases (inv : Inv pool place pins) (owns : pool.Owns page) :
    (∃ m, place m = .resident page) ∨ (∃ m, (place m).Locks page) ∨
      pool.pageTable.word? page = some .empty := by
  obtain ⟨word, here⟩ := Option.ne_none_iff_exists'.mp owns.registered
  cases word with
  | empty => exact Or.inr (Or.inr here)
  | busy => exact Or.inr (Or.inl ((inv.locked page owns).mp here))
  | frame m => exact Or.inl ⟨m, (inv.mapped page owns m).mp here⟩

omit [Replacer R] [LawfulReplacer R] in
/-- `Owns` reads the partition, the open handles and which slots there are. -/
theorem Owns.congr {pool pool' : BufferPool R} (sameId : pool'.poolId = pool.poolId)
    (samePart : pool'.pageTable.partitioner = pool.pageTable.partitioner)
    (valid : ∀ fd, pool'.disk.validFD fd = pool.disk.validFD fd)
    (slots : ∀ page, pool'.pageTable.word? page = none ↔ pool.pageTable.word? page = none)
    {page : Page} : pool'.Owns page ↔ pool.Owns page := by
  constructor
  · rintro ⟨partition, fpageId, handle, opened, registered⟩
    exact ⟨samePart ▸ sameId ▸ partition, fpageId, handle, (valid _).symm.trans opened,
      fun none => registered ((slots page).mpr none)⟩
  · rintro ⟨partition, fpageId, handle, opened, registered⟩
    exact ⟨samePart ▸ sameId ▸ partition, fpageId, handle, (valid _).trans opened,
      fun none => registered ((slots page).mp none)⟩

end Gbp.BufferPool
