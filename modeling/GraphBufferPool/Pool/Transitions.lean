import GraphBufferPool.Pool.Places

/-! # What the steps of a fetch do to the places

One lemma for each change of the shared structures: a pin or an unpin, taking a free frame, taking
a victim, publishing a loaded frame.
-/

namespace Gbp.BufferPool

open Function LawfulReplacer

variable {R : Type} [Replacer R] [LawfulReplacer R] {pool : BufferPool R} {place : ℕ → Place}
  {pins : List (Page × ℕ)} {page : Page} {m : ℕ}

/-- A frame in the free list has room for a page. -/
private theorem Inv.countP_eq_zero (inv : Inv pool place pins)
    (outside : (place m).page? = none) : (pins.countP fun pin => pin.2 = m) = 0 := by
  rw [List.countP_eq_zero]
  rintro ⟨page, k⟩ member
  simp only [decide_eq_true_eq]
  rintro rfl
  rcases inv.pinned page k member with here | here <;> simp [here, Place.page?] at outside

/-- The entry of a frame in use gets another count or dirty bit, and the pins follow. -/
theorem Inv.recount (inv : Inv pool place pins) (pte : PTE) {r : R} {pins' : List (Page × ℕ)}
    (used : place m = .resident page ∨ place m = .orphan page)
    (samePage : pte.page = (pool.pageTable.ptes m).page)
    (sameBusy : pte.busy = (pool.pageTable.ptes m).busy)
    (sameInit : pte.initialized = (pool.pageTable.ptes m).initialized)
    (here : pte.refCount = pins'.countP fun pin => pin.2 = m)
    (others : ∀ k ≠ m, (pins'.countP fun pin => pin.2 = k) = pins.countP fun pin => pin.2 = k)
    (pinned : ∀ page m, (page, m) ∈ pins' → place m = .resident page ∨ place m = .orphan page)
    (sameCapacity : LawfulReplacer.capacity r = LawfulReplacer.capacity pool.replacer)
    (sameFrames : ∀ k, k ∈ frames r ↔ k ∈ frames pool.replacer) (calm : Calm r) :
    Inv { pool with pageTable := pool.pageTable.setPte m pte, replacer := r } place pins' := by
  have owns (page : Page) : Owns { pool with
      pageTable := pool.pageTable.setPte m pte
      replacer := r } page ↔ pool.Owns page := by
    refine Owns.congr ?_ ?_ ?_ ?_ <;> intros <;> rfl
  have field {α : Type} (get : PTE → α) (same : get pte = get (pool.pageTable.ptes m)) (k : ℕ) :
      get (update pool.pageTable.ptes m pte k) = get (pool.pageTable.ptes k) := by
    by_cases there : k = m
    · subst there
      rw [update_self, same]
    · rw [update_of_ne there]
  exact { inv with
    capacity := sameCapacity.trans inv.capacity
    calm := calm
    tracked := fun k page there => (sameFrames k).mpr (inv.tracked k page there)
    known := fun k linked => inv.known k ((sameFrames k).mp linked)
    mapped := fun page mine => inv.mapped page ((owns page).mp mine)
    locked := fun page mine => inv.locked page ((owns page).mp mine)
    owned := fun k page there => (owns page).mpr (inv.owned k page there)
    described := fun k page there => (field PTE.page samePage k).trans (inv.described k page there)
    settled := by
      intro k page there
      obtain ⟨free, initialized⟩ := inv.settled k page there
      exact ⟨(field PTE.busy sameBusy k).trans free,
        (field PTE.initialized sameInit k).trans initialized⟩
    stuck := by
      intro k page there
      have other : k ≠ m := by
        rintro rfl
        rcases used with used | used <;> rw [used] at there <;> cases there
      dsimp only [PageTable.setPte_ptes]
      rw [update_of_ne other]
      exact inv.stuck k page there
    counted := by
      intro k page there
      by_cases mine : k = m
      · subst mine
        simpa using here
      · dsimp only [PageTable.setPte_ptes]
        rw [update_of_ne mine, others k mine]
        exact inv.counted k page there
    pinned := pinned }

/-- A pool with the same partition, open handles and slots. -/
structure SameFiles (pool pool' : BufferPool R) : Prop where
  poolId : pool'.poolId = pool.poolId
  poolSize : pool'.poolSize = pool.poolSize
  partitioner : pool'.pageTable.partitioner = pool.pageTable.partitioner
  valid : ∀ fd, pool'.disk.validFD fd = pool.disk.validFD fd
  shape : pool'.pageTable.shape = pool.pageTable.shape

omit [Replacer R] [LawfulReplacer R] in
theorem SameFiles.slots {pool' : BufferPool R} (same : SameFiles pool pool') (page : Page) :
    pool'.pageTable.word? page = none ↔ pool.pageTable.word? page = none := by
  rw [PageTable.word?_eq_none_iff, PageTable.word?_eq_none_iff, same.shape, same.partitioner]

omit [Replacer R] [LawfulReplacer R] in
theorem SameFiles.owns {pool' : BufferPool R} (same : SameFiles pool pool') {page : Page} :
    pool'.Owns page ↔ pool.Owns page :=
  Owns.congr same.poolId same.partitioner same.valid same.slots

omit [Replacer R] [LawfulReplacer R] in
theorem SameFiles.refl (pool : BufferPool R) : SameFiles pool pool :=
  ⟨rfl, rfl, rfl, fun _ => rfl, rfl⟩

omit [Replacer R] [LawfulReplacer R] in
theorem SameFiles.trans {first second third : BufferPool R} (before : SameFiles first second)
    (after : SameFiles second third) : SameFiles first third :=
  ⟨after.poolId.trans before.poolId, after.poolSize.trans before.poolSize,
    after.partitioner.trans before.partitioner,
    fun fd => (after.valid fd).trans (before.valid fd),
    after.shape.trans before.shape⟩

/-- The invariant reads which handles are open, and nothing else of the disk. -/
theorem Inv.withDisk (inv : Inv pool place pins) {disk : DiskManager}
    (valid : ∀ fd, disk.validFD fd = pool.disk.validFD fd) :
    Inv { pool with disk := disk } place pins := by
  have same : SameFiles pool { pool with disk := disk } := ⟨rfl, rfl, rfl, valid, rfl⟩
  exact { inv with
    mapped := fun page mine => inv.mapped page (same.owns.mp mine)
    locked := fun page mine => inv.locked page (same.owns.mp mine)
    owned := fun k page there => same.owns.mpr (inv.owned k page there) }

/-- Opening or growing a file adds empty slots. -/
theorem Inv.extend (inv : Inv pool place pins) {pageTable : PageTable} {disk : DiskManager}
    (grown : pool.pageTable.Extends pageTable)
    (valid : ∀ page, pool.pageTable.word? page ≠ none →
      disk.validFD page.fd = pool.disk.validFD page.fd) :
    Inv { pool with pageTable := pageTable, disk := disk } place pins := by
  have owns {page : Page} (registered : pool.pageTable.word? page ≠ none) :
      Owns { pool with pageTable := pageTable, disk := disk } page ↔ pool.Owns page := by
    have word := grown.kept page registered
    constructor
    · rintro ⟨partition, fpageId, handle, opened, _⟩
      exact ⟨grown.partitioner ▸ partition, fpageId, handle, (valid page registered).symm.trans opened,
        registered⟩
    · rintro ⟨partition, fpageId, handle, opened, _⟩
      exact ⟨grown.partitioner.symm ▸ partition, fpageId, handle,
        (valid page registered).trans opened, word ▸ registered⟩
  have unregistered {page : Page} (none : pool.pageTable.word? page = none) (m : ℕ) :
      place m ≠ .resident page ∧ ¬ (place m).Locks page :=
    ⟨fun here => (inv.owned m page (Or.inl here)).registered none,
      fun locks => (inv.owned m page (Or.inr locks)).registered none⟩
  have described (m : ℕ) : pageTable.ptes m = pool.pageTable.ptes m := congrFun grown.ptes m
  exact {
    absent := inv.absent
    capacity := inv.capacity
    calm := inv.calm
    free := inv.free
    freeNodup := inv.freeNodup
    tracked := inv.tracked
    known := inv.known
    mapped := by
      intro page mine m
      by_cases none : pool.pageTable.word? page = none
      · refine ⟨fun here => ?_, fun here => absurd here (unregistered none m).1⟩
        rcases grown.added page none with word | word <;> cases word.symm.trans here
      · change pageTable.word? page = _ ↔ _
        rw [grown.kept page none]
        exact inv.mapped page ((owns none).mp mine) m
    locked := by
      intro page mine
      by_cases none : pool.pageTable.word? page = none
      · refine ⟨fun here => ?_, fun ⟨m, here⟩ => absurd here (unregistered none m).2⟩
        rcases grown.added page none with word | word <;> cases word.symm.trans here
      · change pageTable.word? page = _ ↔ _
        rw [grown.kept page none]
        exact inv.locked page ((owns none).mp mine)
    lockedOnce := inv.lockedOnce
    owned := fun m page here =>
      (owns (inv.owned m page here).registered).mpr (inv.owned m page here)
    gone := fun m page here => grown.gone page.fd (inv.gone m page here)
    described := fun m page here => (congrArg PTE.page (described m)).trans (inv.described m page here)
    settled := fun m page here =>
      ⟨(congrArg PTE.busy (described m)).trans (inv.settled m page here).1,
        (congrArg PTE.initialized (described m)).trans (inv.settled m page here).2⟩
    stuck := fun m page here => (congrArg PTE.refCount (described m)).trans (inv.stuck m page here)
    counted := fun m page here => (congrArg PTE.refCount (described m)).trans (inv.counted m page here)
    pinned := inv.pinned }

/-- A frame that holds no pinned page is taken for `page`, whose mapping becomes BUSY; the mapping
of the page it held, if any, is deleted. -/
theorem Inv.take (inv : Inv pool place pins) (owns : pool.Owns page)
    (empty : pool.pageTable.word? page = some .empty) {pool' : BufferPool R}
    (same : SameFiles pool pool')
    (source : place m = .free ∨
      ∃ old, place m = .resident old ∧ (pool.pageTable.ptes m).refCount = 0)
    (words : ∀ other, pool.Owns other → pool'.pageTable.word? other =
      if other = page then some .busy
      else if place m = .resident other then some .empty else pool.pageTable.word? other)
    (entries : ∀ k ≠ m, pool'.pageTable.ptes k = pool.pageTable.ptes k)
    (freeList : ∀ k, k ∈ pool'.freeList ↔ k ∈ pool.freeList ∧ k ≠ m)
    (freeNodup : pool'.freeList.Nodup)
    (sameCapacity : LawfulReplacer.capacity pool'.replacer = LawfulReplacer.capacity pool.replacer)
    (linked : ∀ k ≠ m, k ∈ frames pool'.replacer ↔ k ∈ frames pool.replacer)
    (calm : Calm pool'.replacer) : Inv pool' (update place m (.loading page)) pins := by
  have unlocked (k : ℕ) : ¬ (place k).Locks page := by
    intro locks
    have busy := (inv.locked page owns).mpr ⟨k, locks⟩
    rw [empty] at busy
    cases busy
  have away (k : ℕ) : place k ≠ .resident page := by
    intro here
    have := inv.word?_resident here
    rw [empty] at this
    cases this
  have present : place m ≠ .absent := by
    rcases source with free | ⟨old, here, _⟩ <;> simp [*]
  have unlocks (other : Page) : ¬ (place m).Locks other := by
    rcases source with free | ⟨old, here, _⟩ <;> simp [*]
  have locks {k : ℕ} {other : Page} : (update place m (.loading page) k).Locks other ↔
      k = m ∧ other = page ∨ (place k).Locks other := by
    by_cases here : k = m
    · subst here
      simp [unlocks]
    · simp [here]
  have elsewhere (k : ℕ) {c : Place} (other : .loading page ≠ c) :
      update place m (.loading page) k = c ↔ k ≠ m ∧ place k = c := update_eq_iff_ne_and other k
  have used {k : ℕ} {other : Page} (there : (update place m (.loading page) k).page? = some other) :
      k ≠ m ∧ (place k).page? = some other := by
    by_cases here : k = m
    · subst here
      simp [Place.page?] at there
    · exact ⟨here, by rwa [update_of_ne here] at there⟩
  exact {
    absent := by
      intro k
      rw [elsewhere _ (by rintro ⟨⟩), same.poolSize, ← inv.absent]
      exact ⟨And.right, fun there => ⟨fun mine => present (mine ▸ there), there⟩⟩
    capacity := sameCapacity.trans (inv.capacity.trans same.poolSize.symm)
    calm := calm
    free := by
      intro k
      rw [freeList, inv.free, elsewhere _ (by rintro ⟨⟩), and_comm]
    freeNodup := freeNodup
    tracked := by
      intro k other there
      obtain ⟨apart, there⟩ := used there
      exact (linked k apart).mpr (inv.tracked k other there)
    known := by
      intro k member
      rw [same.poolSize]
      by_cases here : k = m
      · subst here
        exact Nat.lt_of_not_le fun past => present ((inv.absent k).mpr past)
      · exact inv.known k ((linked k here).mp member)
    mapped := by
      intro other mine k
      rw [words other (same.owns.mp mine), elsewhere _ (by rintro ⟨⟩)]
      split_ifs with requested evicted
      · subst requested
        simp [away]
      · refine ⟨by rintro ⟨⟩, ?_⟩
        rintro ⟨apart, there⟩
        have first := inv.word?_resident evicted
        have second := inv.word?_resident there
        rw [first] at second
        cases second
        exact absurd rfl apart
      · rw [inv.mapped other (same.owns.mp mine)]
        exact ⟨fun there => ⟨fun here => evicted (here ▸ there), there⟩, And.right⟩
    locked := by
      intro other mine
      rw [words other (same.owns.mp mine)]
      simp only [locks]
      split_ifs with requested evicted
      · subst requested
        exact ⟨fun _ => ⟨m, Or.inl ⟨rfl, rfl⟩⟩, fun _ => rfl⟩
      · refine ⟨by rintro ⟨⟩, ?_⟩
        rintro ⟨k, ⟨_, asked⟩ | there⟩
        · exact absurd asked requested
        · have busy := (inv.locked other (same.owns.mp mine)).mpr ⟨k, there⟩
          rw [inv.word?_resident evicted] at busy
          cases busy
      · rw [inv.locked other (same.owns.mp mine)]
        constructor
        · rintro ⟨k, there⟩
          exact ⟨k, Or.inr there⟩
        · rintro ⟨k, ⟨_, asked⟩ | there⟩
          · exact absurd asked requested
          · exact ⟨k, there⟩
    lockedOnce := by
      intro k k' other first second
      rw [locks] at first second
      rcases first with ⟨rfl, rfl⟩ | first <;> rcases second with ⟨rfl, asked⟩ | second
      · rfl
      · exact absurd second (unlocked k')
      · subst asked
        exact absurd first (unlocked k)
      · exact inv.lockedOnce k k' other first second
    owned := by
      intro k other there
      rw [locks, elsewhere _ (by rintro ⟨⟩)] at there
      rw [same.owns]
      rcases there with ⟨_, there⟩ | ⟨_, rfl⟩ | there
      · exact inv.owned k other (Or.inl there)
      · exact owns
      · exact inv.owned k other (Or.inr there)
    gone := by
      intro k other there
      rw [elsewhere _ (by rintro ⟨⟩)] at there
      rw [same.shape]
      exact inv.gone k other there.2
    described := by
      intro k other there
      obtain ⟨apart, there⟩ := used there
      rw [entries k apart]
      exact inv.described k other there
    settled := by
      intro k other there
      rw [elsewhere _ (by rintro ⟨⟩)] at there
      rw [entries k there.1]
      exact inv.settled k other there.2
    stuck := by
      intro k other there
      rw [elsewhere _ (by rintro ⟨⟩)] at there
      rw [entries k there.1]
      exact inv.stuck k other there.2
    counted := by
      intro k other there
      rw [elsewhere _ (by rintro ⟨⟩), elsewhere _ (by rintro ⟨⟩)] at there
      rcases there with ⟨apart, there⟩ | ⟨apart, there⟩ <;> rw [entries k apart]
      · exact inv.counted k other (Or.inl there)
      · exact inv.counted k other (Or.inr there)
    pinned := by
      intro other k member
      have apart : k ≠ m := by
        rintro rfl
        rcases source with free | ⟨old, here, unpinned⟩
        · rcases inv.pinned other k member with there | there <;> simp [free] at there
        · have none := (inv.counted k old (Or.inl here)).symm.trans unpinned
          exact absurd (List.countP_eq_zero.mp none _ member) (by simp)
      rw [update_of_ne apart]
      exact inv.pinned other k member }

/-- A taken frame becomes the frame of its page, with one pin. -/
theorem Inv.publish (inv : Inv pool place pins) (here : place m = .loading page)
    {pool' : BufferPool R} (same : SameFiles pool pool')
    (words : ∀ other, pool.Owns other → pool'.pageTable.word? other =
      if other = page then some (.frame m) else pool.pageTable.word? other)
    (entry : pool'.pageTable.ptes m = .loaded page)
    (entries : ∀ k ≠ m, pool'.pageTable.ptes k = pool.pageTable.ptes k)
    (sameFree : pool'.freeList = pool.freeList)
    (sameCapacity : LawfulReplacer.capacity pool'.replacer = LawfulReplacer.capacity pool.replacer)
    (linked : ∀ k, k ∈ frames pool'.replacer ↔ k = m ∨ k ∈ frames pool.replacer)
    (calm : Calm pool'.replacer) :
    Inv pool' (update place m (.resident page)) ((page, m) :: pins) := by
  have owns : pool.Owns page := inv.owned m page (Or.inr (by simp [here]))
  have unpinned := inv.countP_eq_zero (m := m) (by simp [here, Place.page?])
  have described : (PTE.loaded page).page = page := PTE.loaded_page owns.handle owns.fpageId
  have away (k : ℕ) : place k ≠ .resident page := by
    intro there
    have busy := (inv.locked page owns).mpr ⟨m, by simp [here]⟩
    rw [inv.word?_resident there] at busy
    cases busy
  have inside : m < pool.poolSize := by
    refine Nat.lt_of_not_le fun past => ?_
    rw [(inv.absent m).mpr past] at here
    cases here
  have elsewhere (k : ℕ) {c : Place} (other : .resident page ≠ c) :
      update place m (.resident page) k = c ↔ k ≠ m ∧ place k = c := update_eq_iff_ne_and other k
  have resident (k : ℕ) (other : Page) : update place m (.resident page) k = .resident other ↔
      k = m ∧ other = page ∨ place k = .resident other := by
    by_cases mine : k = m
    · subst mine
      simp [here, eq_comm]
    · simp [mine]
  have locks (k : ℕ) (other : Page) : (update place m (.resident page) k).Locks other ↔
      k ≠ m ∧ (place k).Locks other := by
    by_cases mine : k = m
    · subst mine
      simp
    · simp [mine]
  have used (k : ℕ) (other : Page) : (update place m (.resident page) k).page? = some other ↔
      k = m ∧ other = page ∨ (place k).page? = some other := by
    by_cases mine : k = m
    · subst mine
      simp [here, Place.page?, eq_comm]
    · simp [mine]
  have moved (k : ℕ) {c : Place} (old : .loading page ≠ c) (new : .resident page ≠ c) :
      update place m (.resident page) k = c ↔ place k = c :=
    update_eq_iff_of_ne (here ▸ old) new k
  exact {
    absent := by
      intro k
      rw [moved k (by rintro ⟨⟩) (by rintro ⟨⟩), same.poolSize, inv.absent]
    capacity := sameCapacity.trans (inv.capacity.trans same.poolSize.symm)
    calm := calm
    free := by
      intro k
      rw [sameFree, inv.free, moved k (by rintro ⟨⟩) (by rintro ⟨⟩)]
    freeNodup := sameFree ▸ inv.freeNodup
    tracked := by
      intro k other there
      rw [linked]
      exact ((used k other).mp there).imp And.left (inv.tracked k other)
    known := by
      intro k member
      rw [same.poolSize]
      rcases (linked k).mp member with rfl | member
      · exact inside
      · exact inv.known k member
    mapped := by
      intro other mine k
      rw [words other (same.owns.mp mine), resident]
      split_ifs with published
      · subst published
        simp [away, eq_comm]
      · simp [published, inv.mapped other (same.owns.mp mine)]
    locked := by
      intro other mine
      rw [words other (same.owns.mp mine)]
      simp only [locks]
      split_ifs with published
      · subst published
        refine ⟨by rintro ⟨⟩, ?_⟩
        rintro ⟨k, apart, there⟩
        exact absurd (inv.lockedOnce k m other there (by simp [here])) apart
      · rw [inv.locked other (same.owns.mp mine)]
        refine exists_congr fun k => ⟨fun there => ⟨?_, there⟩, And.right⟩
        rintro rfl
        exact published (by simpa [here] using there)
    lockedOnce := by
      intro k k' other first second
      exact inv.lockedOnce k k' other ((locks k other).mp first).2 ((locks k' other).mp second).2
    owned := by
      intro k other there
      rw [resident, locks] at there
      rw [same.owns]
      rcases there with (⟨_, rfl⟩ | there) | ⟨_, there⟩
      · exact owns
      · exact inv.owned k other (Or.inl there)
      · exact inv.owned k other (Or.inr there)
    gone := by
      intro k other there
      rw [same.shape]
      exact inv.gone k other ((moved k (by rintro ⟨⟩) (by rintro ⟨⟩)).mp there)
    described := by
      intro k other there
      by_cases mine : k = m
      · subst mine
        rw [entry, described]
        simpa [Place.page?] using there
      · rw [entries k mine]
        exact inv.described k other (by rwa [update_of_ne mine] at there)
    settled := by
      intro k other there
      by_cases mine : k = m
      · subst mine
        rw [entry]
        exact ⟨rfl, rfl⟩
      · rw [entries k mine]
        exact inv.settled k other (by rwa [update_of_ne mine] at there)
    stuck := by
      intro k other there
      rw [elsewhere k (by rintro ⟨⟩)] at there
      rw [entries k there.1]
      exact inv.stuck k other there.2
    counted := by
      intro k other there
      rw [List.countP_cons]
      by_cases mine : k = m
      · subst mine
        simp [entry, unpinned, PTE.loaded]
      · rw [entries k mine]
        rw [update_of_ne mine] at there
        simp [inv.counted k other there, Ne.symm mine]
    pinned := by
      intro other k member
      rcases List.mem_cons.mp member with same | earlier
      · cases same
        exact Or.inl (update_self ..)
      · have apart : k ≠ m := by
          rintro rfl
          rcases inv.pinned other k earlier with there | there <;> rw [here] at there <;> cases there
        rw [update_of_ne apart]
        exact inv.pinned other k earlier }

/-- Another pin on a resident frame. -/
theorem Inv.addPin (inv : Inv pool place pins) (here : place m = .resident page)
    (room : Room pins m) {r : R}
    (sameCapacity : LawfulReplacer.capacity r = LawfulReplacer.capacity pool.replacer)
    (sameFrames : ∀ k, k ∈ frames r ↔ k ∈ frames pool.replacer) (calm : Calm r) :
    Inv { pool with
      pageTable := pool.pageTable.setPte m ((pool.pageTable.ptes m).fetchAdd 1)
      replacer := r } place ((page, m) :: pins) := by
  have counted := inv.counted m page (Or.inl here)
  have bound : (pool.pageTable.ptes m).refCount + 1 < 2 ^ 16 := counted ▸ room
  rw [PTE.fetchAdd_one _ bound]
  refine inv.recount _ (Or.inl here) rfl rfl rfl ?_ ?_ ?_ sameCapacity sameFrames calm
  · simp [counted]
  · intro k apart
    simp [Ne.symm apart]
  · intro other k member
    rcases List.mem_cons.mp member with same | earlier
    · cases same
      exact Or.inl here
    · exact inv.pinned other k earlier

/-- `DecRefCount` by the holder of a pin. -/
theorem Inv.decRefCount (inv : Inv pool place pins) (member : (page, m) ∈ pins) (isWrite : Bool) :
    Inv (pool.decRefCount m isWrite) place (pins.erase (page, m)) := by
  have used := inv.pinned page m member
  have counted := inv.counted m page used
  have positive : 0 < pins.countP fun pin => pin.2 = m :=
    List.countP_pos_iff.mpr ⟨(page, m), member, by simp⟩
  have removed (k : ℕ) : (pins.countP fun pin => pin.2 = k) =
      ((pins.erase (page, m)).countP fun pin => pin.2 = k) + if m = k then 1 else 0 := by
    rw [(List.perm_cons_erase member).countP_eq, List.countP_cons]
    simp
  set dirtied : PTE := if isWrite then (pool.pageTable.ptes m).setDirty true
    else pool.pageTable.ptes m with dirtied_eq
  have sameCount : dirtied.refCount = (pool.pageTable.ptes m).refCount := by
    rw [dirtied_eq]
    split_ifs <;> rfl
  have samePage : dirtied.page = (pool.pageTable.ptes m).page := by
    rw [dirtied_eq]
    split_ifs <;> rfl
  have sameBusy : dirtied.busy = (pool.pageTable.ptes m).busy := by
    rw [dirtied_eq]
    split_ifs <;> rfl
  have sameInit : dirtied.initialized = (pool.pageTable.ptes m).initialized := by
    rw [dirtied_eq]
    split_ifs <;> rfl
  have held : 0 < dirtied.refCount := by omega
  refine inv.recount (dirtied.fetchSub 1) used ?_ ?_ ?_ ?_ ?_ ?_ rfl (fun _ => Iff.rfl) inv.calm
  · rw [PTE.fetchSub_one _ held]
    exact samePage
  · rw [PTE.fetchSub_one _ held]
    exact sameBusy
  · rw [PTE.fetchSub_one _ held]
    exact sameInit
  · rw [PTE.fetchSub_one _ held, PTE.setRefCount_refCount, sameCount, counted, removed m]
    simp
  · intro k apart
    rw [removed k, if_neg (Ne.symm apart), Nat.add_zero]
  · exact fun other k later => inv.pinned other k (List.mem_of_mem_erase later)

end Gbp.BufferPool
