import GraphBufferPool.Pool.Content

/-! # The flush of a page

`FlushPage` writes a dirty page back if no one holds it. It returns the frame to the free list if asked,
and otherwise leaves the mapping and the entry locked. Where it returns false it has changed nothing.
-/

namespace Gbp.BufferPool

open Function LawfulReplacer DiskManager

section model

variable {R : Type}

/-- `LockMapping` of the page succeeds: its mapping is not BUSY, and its entry, if it has a frame, is neither
busy nor pinned. -/
def Idle (pool : BufferPool R) (page : Page) : Prop :=
  pool.pageTable.word? page = some .empty ∨
    ∃ m, pool.pageTable.word? page = some (.frame m) ∧ (pool.pageTable.ptes m).lock? ≠ none

/-- The place of a frame after the flush of its page. -/
def flushedPlace (page : Page) (deleteFromMemory : Bool) : Place := if deleteFromMemory then .free else .stuck page

/-- What the flush of a resident page does. -/
structure Flushed (pool : BufferPool R) (page : Page) (m : ℕ) (deleteFromMemory : Bool) (pool' : BufferPool R) :
    Prop where
  files : SameFiles pool pool'
  handles : SameHandles pool.disk pool'.disk
  words : ∀ other, pool.Owns other → pool'.pageTable.word? other =
    if other = page then some (if deleteFromMemory then .empty else .busy) else pool.pageTable.word? other
  entries : ∀ k ≠ m, pool'.pageTable.ptes k = pool.pageTable.ptes k
  entry : (pool'.pageTable.ptes m).page = page ∧ (pool'.pageTable.ptes m).refCount = 0
  freeList : pool'.freeList = if deleteFromMemory then pool.freeList ++ [m] else pool.freeList
  replacer : pool'.replacer = pool.replacer
  memory : pool'.memory = pool.memory
  spilled : Spilled pool page m pool'.disk

variable {pool : BufferPool R} {page : Page} {m : ℕ}

theorem flushPage_busy (word : pool.pageTable.word? page = some .busy) (deleteFromMemory : Bool) :
    pool.flushPage page deleteFromMemory = .ok (false, pool) := by
  rw [flushPage, PageTable.lockMapping_busy word]
  rfl

theorem flushPage_empty (word : pool.pageTable.word? page = some .empty) (deleteFromMemory : Bool) :
    pool.flushPage page deleteFromMemory = .ok (true, pool) := by
  rw [flushPage, PageTable.lockMapping_empty word]
  simp only [ok_bind, PageTable.unLockMapping_empty word]
  rfl

theorem flushPage_refused (word : pool.pageTable.word? page = some (.frame m))
    (refused : (pool.pageTable.ptes m).lock? = none) (deleteFromMemory : Bool) :
    pool.flushPage page deleteFromMemory = .ok (false, pool) := by
  rw [flushPage, PageTable.lockMapping_refused word refused]
  rfl

end model

variable {R : Type} [Replacer R] [LawfulReplacer R] {pool pool' : BufferPool R} {place : ℕ → Place}
  {pins : List (Page × ℕ)} {page : Page} {m : ℕ} {deleteFromMemory : Bool}

/-- A pool whose table differs in the mapping of the page and the entry of its frame. -/
theorem Inv.flushed (inv : Inv pool place pins) (here : place m = .resident page) {disk : DiskManager}
    (handles : SameHandles pool.disk disk) (spilled : Spilled pool page m disk) {pte : PTE} (samePage : pte.page = page)
    (unpinned : pte.refCount = 0) :
    Flushed pool page m deleteFromMemory { pool with
      pageTable := (pool.pageTable.setWord page (if deleteFromMemory then .empty else .busy)).setPte m pte
      freeList := if deleteFromMemory then pool.freeList ++ [m] else pool.freeList
      disk := disk } where
  files := ⟨rfl, rfl, rfl, handles.valid, PageTable.setWord_shape _⟩
  handles := handles
  words := fun other owned => by
    dsimp only
    rw [PageTable.setPte_word?, (inv.owned m page (Or.inl here)).setWord_word? owned]
  entries := fun k apart => update_of_ne apart ..
  entry := by
    dsimp only [PageTable.setPte_ptes]
    rw [update_self]
    exact ⟨samePage, unpinned⟩
  freeList := rfl
  replacer := rfl
  memory := rfl
  spilled := spilled

/-- The flush of a resident page that no one holds. -/
theorem Inv.flushPage (inv : Inv pool place pins) (here : place m = .resident page)
    (unpinned : (pool.pageTable.ptes m).refCount = 0) (deleteFromMemory : Bool) :
    ∃ pool', pool.flushPage page deleteFromMemory = .ok (true, pool') ∧
      Flushed pool page m deleteFromMemory pool' := by
  have word := inv.word?_resident here
  have described : (pool.pageTable.ptes m).page = page := inv.described m page (by simp [here, Place.page?])
  have locked := PageTable.lockMapping_unpinned word (inv.settled m page here).1 unpinned
  have handle : (pool.pageTable.ptes m).fdCur = page.fd := congrArg Page.fd described
  have marked (pte : PTE) : ((pool.pageTable.setWord page .busy).setPte m pte).deleteMapping page =
      .ok (true, (pool.pageTable.setWord page .empty).setPte m pte) := by
    rw [PageTable.deleteMapping_busy, PageTable.setPte_setWord, PageTable.setWord_setWord]
    exact PageTable.setWord_word?_self word
  cases dirty : (pool.pageTable.ptes m).dirty with
  | true =>
    obtain ⟨disk, written, handles, _⟩ := exists_write (inv.owned m page (Or.inl here)).valid
      (page.fpageId * pageSize) (pool.memory m)
    have spilled : Spilled pool page m disk := by simpa [Spilled, dirty] using written
    refine ⟨_, ?_, @Inv.flushed _ _ _ _ _ _ _ _ deleteFromMemory inv here disk handles spilled
      ({ pool.pageTable.ptes m with busy := true, dirty := false }) described unpinned⟩
    simp only [BufferPool.flushPage, locked, ok_bind, PageTable.lockFrame, PageTable.setPte_ptes,
      PageTable.setWord_ptes, update_self, dirty, if_true, handle, written]
    cases deleteFromMemory with
    | true =>
      simp only [if_true, pure_bind, PageTable.setPte_setPte, marked, ok_bind, check_true]
      rfl
    | false =>
      simp only [pure_bind, PageTable.setPte_setPte]
      rfl
  | false =>
    have spilled : Spilled pool page m pool.disk := by simp [Spilled, dirty]
    refine ⟨_, ?_, @Inv.flushed _ _ _ _ _ _ _ _ deleteFromMemory inv here pool.disk (.refl _) spilled
      ({ pool.pageTable.ptes m with busy := true }) described unpinned⟩
    simp only [BufferPool.flushPage, locked, ok_bind, PageTable.lockFrame, PageTable.setPte_ptes,
      PageTable.setWord_ptes, update_self, dirty, Bool.false_eq_true, if_false]
    cases deleteFromMemory with
    | true =>
      simp only [if_true, pure_bind, marked, ok_bind, check_true]
      rfl
    | false => rfl

theorem flushedPlace_ne_resident (page other : Page) (deleteFromMemory : Bool) :
    flushedPlace page deleteFromMemory ≠ .resident other := by
  cases deleteFromMemory <;> nofun

/-- The frame of a flushed page is free or left locked. -/
theorem Flushed.inv (flushed : Flushed pool page m deleteFromMemory pool') (inv : Inv pool place pins)
    (here : place m = .resident page) (unpinned : (pool.pageTable.ptes m).refCount = 0) :
    Inv pool' (update place m (flushedPlace page deleteFromMemory)) pins := by
  have owns := inv.owned m page (Or.inl here)
  have same := flushed.files
  have locks (k : ℕ) (other : Page) : (update place m (flushedPlace page deleteFromMemory) k).Locks other ↔
      k = m ∧ deleteFromMemory = false ∧ other = page ∨ (place k).Locks other := by
    by_cases mine : k = m
    · subst mine
      cases deleteFromMemory <;> simp [flushedPlace, here]
    · simp [mine]
  have resident (k : ℕ) (other : Page) : update place m (flushedPlace page deleteFromMemory) k = .resident other ↔
      k ≠ m ∧ place k = .resident other :=
    update_eq_iff_ne_and (flushedPlace_ne_resident page other deleteFromMemory) k
  have orphan (k : ℕ) (other : Page) : update place m (flushedPlace page deleteFromMemory) k = .orphan other ↔
      k ≠ m ∧ place k = .orphan other :=
    update_eq_iff_ne_and (by cases deleteFromMemory <;> rintro ⟨⟩) k
  have used {k : ℕ} {other : Page}
      (there : (update place m (flushedPlace page deleteFromMemory) k).page? = some other) :
      k = m ∧ other = page ∨ k ≠ m ∧ (place k).page? = some other := by
    by_cases mine : k = m
    · subst mine
      rw [update_self] at there
      cases deleteFromMemory with
      | true => cases there
      | false =>
        cases there
        exact Or.inl ⟨rfl, rfl⟩
    · rw [update_of_ne mine] at there
      exact Or.inr ⟨mine, there⟩
  have alone {k : ℕ} (there : place k = .resident page) : k = m := by
    have word := inv.word?_resident here
    rw [inv.word?_resident there] at word
    cases word
    rfl
  have unlocked (k : ℕ) : ¬ (place k).Locks page := by
    intro there
    have busy := (inv.locked page owns).mpr ⟨k, there⟩
    rw [inv.word?_resident here] at busy
    cases busy
  exact {
    absent := by
      intro k
      rw [same.poolSize, ← inv.absent]
      by_cases mine : k = m
      · subst mine
        rw [update_self, here]
        cases deleteFromMemory <;> simp [flushedPlace]
      · rw [update_of_ne mine]
    capacity := by rw [flushed.replacer, same.poolSize, inv.capacity]
    calm := flushed.replacer ▸ inv.calm
    free := by
      intro k
      rw [flushed.freeList]
      cases deleteFromMemory with
      | true =>
        by_cases mine : k = m
        · subst mine
          simp [flushedPlace]
        · simp [mine, inv.free]
      | false =>
        by_cases mine : k = m
        · subst mine
          simp [flushedPlace, inv.free, here]
        · simp [mine, inv.free]
    freeNodup := by
      rw [flushed.freeList]
      cases deleteFromMemory with
      | true =>
        have taken : m ∉ pool.freeList := fun member => by
          rw [(inv.free m).mp member] at here
          cases here
        simpa [List.nodup_append, inv.freeNodup] using fun k member => ne_of_mem_of_not_mem member taken
      | false => exact inv.freeNodup
    tracked := by
      intro k other there
      rw [flushed.replacer]
      rcases used there with ⟨rfl, rfl⟩ | ⟨_, there⟩
      · exact inv.tracked k other (by simp [here, Place.page?])
      · exact inv.tracked k other there
    known := by
      rw [flushed.replacer, same.poolSize]
      exact inv.known
    mapped := by
      intro other mine k
      rw [flushed.words other (same.owns.mp mine), resident]
      by_cases requested : other = page
      · subst requested
        rw [if_pos rfl]
        constructor
        · intro there
          cases deleteFromMemory <;> cases there
        · rintro ⟨apart, there⟩
          exact absurd (alone there) apart
      · rw [if_neg requested, inv.mapped other (same.owns.mp mine)]
        refine ⟨fun there => ⟨?_, there⟩, And.right⟩
        rintro rfl
        rw [here] at there
        cases there
        exact requested rfl
    locked := by
      intro other mine
      rw [flushed.words other (same.owns.mp mine)]
      simp only [locks]
      by_cases requested : other = page
      · subst requested
        rw [if_pos rfl]
        cases deleteFromMemory with
        | true =>
          refine ⟨by rintro ⟨⟩, ?_⟩
          rintro ⟨k, ⟨_, impossible, _⟩ | there⟩
          · cases impossible
          · exact absurd there (unlocked k)
        | false => exact ⟨fun _ => ⟨m, Or.inl ⟨rfl, rfl, rfl⟩⟩, fun _ => rfl⟩
      · rw [if_neg requested, inv.locked other (same.owns.mp mine)]
        simp [requested]
    lockedOnce := by
      intro k k' other first second
      rw [locks] at first second
      rcases first with ⟨rfl, _, rfl⟩ | first <;> rcases second with ⟨rfl, _, asked⟩ | second
      · rfl
      · exact absurd second (unlocked k')
      · subst asked
        exact absurd first (unlocked k)
      · exact inv.lockedOnce k k' other first second
    owned := by
      intro k other there
      rw [resident, locks] at there
      rw [same.owns]
      rcases there with ⟨_, there⟩ | ⟨_, _, rfl⟩ | there
      · exact inv.owned k other (Or.inl there)
      · exact owns
      · exact inv.owned k other (Or.inr there)
    gone := by
      intro k other there
      rw [same.shape]
      exact inv.gone k other ((orphan k other).mp there).2
    described := by
      intro k other there
      rcases used there with ⟨rfl, rfl⟩ | ⟨apart, there⟩
      · exact flushed.entry.1
      · rw [flushed.entries k apart]
        exact inv.described k other there
    settled := by
      intro k other there
      obtain ⟨apart, there⟩ := (resident k other).mp there
      rw [flushed.entries k apart]
      exact inv.settled k other there
    stuck := by
      intro k other there
      by_cases mine : k = m
      · subst mine
        exact flushed.entry.2
      · rw [update_of_ne mine] at there
        rw [flushed.entries k mine]
        exact inv.stuck k other there
    counted := by
      intro k other there
      rw [resident, orphan] at there
      have apart : k ≠ m := there.elim And.left And.left
      rw [flushed.entries k apart]
      exact inv.counted k other (there.imp And.right And.right)
    pinned := by
      intro other k member
      have apart : k ≠ m := by
        rintro rfl
        have none := (inv.counted k page (Or.inl here)).symm.trans unpinned
        exact absurd (List.countP_eq_zero.mp none _ member) (by simp)
      rw [update_of_ne apart]
      exact inv.pinned other k member }

section bytes

variable {K : ℕ → ℕ → Prop} {content : Content}

/-- The flush of a resident page brings the disk up to date for it, and changes no byte of another page. -/
theorem Coherent.flushed (coherent : Coherent K content pool place) (inv : Inv pool place pins)
    (here : place m = .resident page) (flushed : Flushed pool page m deleteFromMemory pool') :
    Coherent K content pool' (update place m (flushedPlace page deleteFromMemory)) ∧
      pool'.disk.Synced K content page ∧
      ∀ other, pool.disk.Synced K content other → pool'.disk.Synced K content other := by
  obtain ⟨synced, others⟩ := coherent.spilled inv here flushed.spilled
  have resident {k : ℕ} {other : Page}
      (there : update place m (flushedPlace page deleteFromMemory) k = .resident other) :
      k ≠ m ∧ place k = .resident other :=
    (update_eq_iff_ne_and (flushedPlace_ne_resident page other deleteFromMemory) k).mp there
  refine ⟨⟨flushed.handles.tail coherent.tail, ?_, ?_, ?_⟩, synced, others⟩
  · intro k other there
    rw [flushed.memory]
    exact coherent.frame k other (resident there).2
  · intro k other there clean
    obtain ⟨apart, there⟩ := resident there
    rw [flushed.entries k apart] at clean
    exact others other (coherent.clean k other there clean)
  · intro other partition gone
    rw [flushed.files.partitioner, flushed.files.poolId] at partition
    by_cases mine : other = page
    · exact mine ▸ synced
    · refine others other (coherent.away other partition fun k there => ?_)
      have apart : k ≠ m := by
        rintro rfl
        rw [here] at there
        cases there
        exact mine rfl
      exact gone k (by rwa [update_of_ne apart])

end bytes

/-- Another page is as easy to lock after a flush as before. -/
theorem Flushed.idle (flushed : Flushed pool page m deleteFromMemory pool') (inv : Inv pool place pins)
    (here : place m = .resident page) {other : Page} (owned : pool.Owns other) (apart : other ≠ page) :
    pool'.Idle other ↔ pool.Idle other := by
  have word := flushed.words other owned
  rw [if_neg apart] at word
  have entry {k : ℕ} (there : pool.pageTable.word? other = some (.frame k)) :
      pool'.pageTable.ptes k = pool.pageTable.ptes k := by
    refine flushed.entries k ?_
    rintro rfl
    have resident := (inv.mapped other owned k).mp there
    rw [here] at resident
    cases resident
    exact apart rfl
  rw [Idle, Idle, word]
  refine or_congr_right (exists_congr fun k => and_congr_right fun there => ?_)
  rw [entry there]

/-- What `FlushPage` has done when it returns. -/
structure FlushedPage (pool : BufferPool R) (place : ℕ → Place) (pins : List (Page × ℕ)) (page : Page)
    (result : Bool) (pool' : BufferPool R) (place' : ℕ → Place) : Prop where
  result_iff : result = true ↔ pool.Idle page
  inv : Inv pool' place' pins
  files : SameFiles pool pool'
  handles : SameHandles pool.disk pool'.disk
  memory : pool'.memory = pool.memory
  idle : ∀ other, pool.Owns other → other ≠ page → (pool'.Idle other ↔ pool.Idle other)
  settled : (∀ k other, place k ≠ .loading other) → ∀ k other, place' k ≠ .loading other
  coherent : ∀ K content, Coherent K content pool place → Coherent K content pool' place' ∧
    (result = true → pool'.disk.Synced K content page) ∧
    ∀ other, pool.disk.Synced K content other → pool'.disk.Synced K content other

/-- A flush that changes nothing. -/
theorem Inv.unflushed (inv : Inv pool place pins) {result : Bool} (result_iff : result = true ↔ pool.Idle page)
    (saved : result = true → pool.pageTable.word? page = some .empty) (owns : pool.Owns page) :
    FlushedPage pool place pins page result pool place where
  result_iff := result_iff
  inv := inv
  files := .refl _
  handles := .refl _
  memory := rfl
  idle := fun _ _ _ => Iff.rfl
  settled := id
  coherent := fun K content coherent => by
    refine ⟨coherent, fun flushed => coherent.away page owns.partition fun k there => ?_, fun _ => id⟩
    have word := inv.word?_resident there
    rw [saved flushed] at word
    cases word

/-- `FlushPage` returns, and true exactly where no one holds the page. -/
theorem Inv.flushPage_cases (inv : Inv pool place pins) (owns : pool.Owns page) (deleteFromMemory : Bool) :
    ∃ result pool' place', pool.flushPage page deleteFromMemory = .ok (result, pool') ∧
      FlushedPage pool place pins page result pool' place' ∧
        ∀ k other, other ≠ page → place k = .resident other → place' k = .resident other := by
  rcases inv.word?_cases owns with ⟨m, here⟩ | locked | empty
  · have word := inv.word?_resident here
    have idle : pool.Idle page ↔ (pool.pageTable.ptes m).lock? ≠ none := by
      constructor
      · rintro (empty | ⟨k, there, free⟩)
        · cases word.symm.trans empty
        · cases word.symm.trans there
          exact free
      · exact fun free => Or.inr ⟨m, word, free⟩
    obtain ⟨free, initialized⟩ := inv.settled m page here
    by_cases unpinned : (pool.pageTable.ptes m).refCount = 0
    · have lockable : (pool.pageTable.ptes m).lock? ≠ none := by simp [PTE.lock?, free, unpinned]
      obtain ⟨pool', ran, flushed⟩ := inv.flushPage here unpinned deleteFromMemory
      refine ⟨true, pool', _, ran, ⟨iff_of_true rfl (idle.mpr lockable), flushed.inv inv here unpinned, flushed.files,
        flushed.handles, flushed.memory, fun other => flushed.idle inv here,
        fun settled k other => ?_, fun K content coherent => ?_⟩, fun k other apart there => ?_⟩
      · by_cases mine : k = m
        · subst mine
          rw [update_self]
          cases deleteFromMemory <;> rintro ⟨⟩
        · rw [update_of_ne mine]
          exact settled k other
      · obtain ⟨after, synced, others⟩ := coherent.flushed inv here flushed
        exact ⟨after, fun _ => synced, others⟩
      · have mine : k ≠ m := by
          rintro rfl
          rw [here] at there
          cases there
          exact apart rfl
        rwa [update_of_ne mine]
    · have refused : (pool.pageTable.ptes m).lock? = none := by simp [PTE.lock?, unpinned, initialized]
      exact ⟨false, pool, place, flushPage_refused word refused _,
        inv.unflushed (iff_of_false Bool.false_ne_true fun held => idle.mp held refused) (by rintro ⟨⟩) owns,
        fun _ _ _ => id⟩
  · have word := (inv.locked page owns).mpr locked
    refine ⟨false, pool, place, flushPage_busy word _,
      inv.unflushed (iff_of_false Bool.false_ne_true ?_) (by rintro ⟨⟩) owns, fun _ _ _ => id⟩
    rintro (empty | ⟨k, there, _⟩)
    · cases word.symm.trans empty
    · cases word.symm.trans there
  · exact ⟨true, pool, place, flushPage_empty empty _,
      inv.unflushed (iff_of_true rfl (Or.inl empty)) (fun _ => empty) owns, fun _ _ _ => id⟩

end Gbp.BufferPool
