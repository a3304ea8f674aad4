import GraphBufferPool.Pool.Content

/-! # Closing a file

`CloseFile` drops the mapping of a file and leaves its frames where they are. A frame that held a page of
the file, or was left locked by its flush, is an orphan from then on: no mapping names it and no
`Victim` may take it.
-/

namespace Gbp

namespace PageTable

variable {pt : PageTable} {fd : ℕ} {page : Page}

theorem deregisterFile_word? :
    (pt.deregisterFile fd).word? page = if page.fd = fd then none else pt.word? page := by
  simp only [word?, deregisterFile]
  split_ifs with same
  · subst same
    rcases Nat.lt_or_ge page.fd pt.mappings.length with inside | past
    · rw [List.getElem?_set_self inside]
      rfl
    · rw [List.getElem?_eq_none (by rwa [List.length_set])]
      rfl
  · rw [List.getElem?_set_ne (Ne.symm same)]

@[simp] theorem deregisterFile_shape : (pt.deregisterFile fd).shape = pt.shape.set fd none := by
  rw [shape, shape, deregisterFile, List.map_set, Option.map_none]

end PageTable

namespace DiskManager

variable {disk : DiskManager} {fd : ℕ}

private theorem closeFile_entry (other : ℕ) : (disk.closeFile fd).files[other]? =
    if fd = other then (disk.files[other]?).map fun entry => { entry with valid := false } else disk.files[other]? := by
  rw [closeFile, List.getElem?_modify]
  split_ifs
  · rfl
  · cases disk.files[other]? <;> rfl

@[simp] theorem closeFile_length : (disk.closeFile fd).files.length = disk.files.length := by simp [closeFile]

theorem closeFile_validFD (other : ℕ) :
    (disk.closeFile fd).validFD other = if other = fd then false else disk.validFD other := by
  rw [validFD, closeFile_entry]
  by_cases same : fd = other
  · rw [if_pos same, if_pos same.symm]
    cases disk.files[other]? <;> rfl
  · rw [if_neg same, if_neg (Ne.symm same)]
    rfl

@[simp] theorem closeFile_file (other : ℕ) : (disk.closeFile fd).file other = disk.file other := by
  rw [DiskManager.file, closeFile_entry]
  split_ifs with same
  · rw [Option.map_map]
    rfl
  · rfl

@[simp] theorem closeFile_size (other : ℕ) :
    (disk.closeFile fd).getFileSizeFast other = disk.getFileSizeFast other := by
  rw [getFileSizeFast, closeFile_entry]
  split_ifs with same
  · rw [Option.map_map]
    rfl
  · rfl

end DiskManager

namespace BufferPool

open Function LawfulReplacer DiskManager

/-- The place of a frame once a file is closed. -/
def Place.closed (fd : ℕ) : Place → Place
  | .resident page => if page.fd = fd then .orphan page else .resident page
  | .stuck page => if page.fd = fd then .orphan page else .stuck page
  | place => place

namespace Place

variable {fd : ℕ} {place : Place} {page : Page}

@[simp] theorem closed_page? : (place.closed fd).page? = place.page? := by
  cases place <;> simp only [closed] <;> split_ifs <;> rfl

@[simp] theorem closed_eq_absent : place.closed fd = .absent ↔ place = .absent := by
  unfold closed
  grind

@[simp] theorem closed_eq_free : place.closed fd = .free ↔ place = .free := by
  unfold closed
  grind

@[simp] theorem closed_eq_resident : place.closed fd = .resident page ↔ place = .resident page ∧ page.fd ≠ fd := by
  unfold closed
  grind

@[simp] theorem closed_eq_stuck : place.closed fd = .stuck page ↔ place = .stuck page ∧ page.fd ≠ fd := by
  unfold closed
  grind

@[simp] theorem closed_eq_loading : place.closed fd = .loading page ↔ place = .loading page := by
  unfold closed
  grind

theorem closed_eq_orphan : place.closed fd = .orphan page ↔ place = .orphan page ∨
    page.fd = fd ∧ (place = .resident page ∨ place = .stuck page) := by
  unfold closed
  grind

end Place

variable {R : Type} [Replacer R] [LawfulReplacer R] {pool : BufferPool R} {place : ℕ → Place} {pins : List (Page × ℕ)}
  {fd : ℕ}

omit [Replacer R] [LawfulReplacer R] in
/-- A closed pool owns the pages of the other files. -/
theorem owns_closeFile {disk : DiskManager} {page : Page}
    (valid : ∀ other, disk.validFD other = if other = fd then false else pool.disk.validFD other) :
    Owns { pool.closeFile fd with disk := disk } page ↔ page.fd ≠ fd ∧ pool.Owns page := by
  have word : ({ pool.closeFile fd with disk := disk } : BufferPool R).pageTable.word? page =
      if page.fd = fd then none else pool.pageTable.word? page := PageTable.deregisterFile_word?
  constructor
  · rintro ⟨partition, fpageId, handle, opened, registered⟩
    rw [word] at registered
    have apart : page.fd ≠ fd := fun same => registered (if_pos same)
    rw [if_neg apart] at registered
    have opened := (valid page.fd).symm.trans opened
    rw [if_neg apart] at opened
    exact ⟨apart, partition, fpageId, handle, opened, registered⟩
  · rintro ⟨apart, partition, fpageId, handle, opened, registered⟩
    refine ⟨partition, fpageId, handle, (valid page.fd).trans ?_, ?_⟩
    · rwa [if_neg apart]
    · rwa [word, if_neg apart]

/-- Closing a file between calls. -/
theorem Inv.closeFile (inv : Inv pool place pins) (settled : ∀ m page, place m ≠ .loading page) {disk : DiskManager}
    (valid : ∀ other, disk.validFD other = if other = fd then false else pool.disk.validFD other) :
    Inv { pool.closeFile fd with disk := disk } (fun m => (place m).closed fd) pins := by
  have word (page : Page) : ({ pool.closeFile fd with disk := disk } : BufferPool R).pageTable.word? page =
      if page.fd = fd then none else pool.pageTable.word? page := PageTable.deregisterFile_word?
  have owns {page : Page} := @owns_closeFile R pool fd disk page valid
  have locks (m : ℕ) (page : Page) : ((place m).closed fd).Locks page ↔ (place m).Locks page ∧ page.fd ≠ fd := by
    simp [Place.Locks, settled m page]
  -- a frame that a flush left locked has no pins
  have unheld {m : ℕ} {page : Page} (here : place m = .stuck page) : (pins.countP fun pin => pin.2 = m) = 0 := by
    rw [List.countP_eq_zero]
    rintro ⟨other, k⟩ member same
    obtain rfl : k = m := by simpa using same
    rcases inv.pinned other k member with there | there <;> cases here.symm.trans there
  exact {
    absent := fun m => by rw [Place.closed_eq_absent]; exact inv.absent m
    capacity := inv.capacity
    calm := inv.calm
    free := fun m => by rw [Place.closed_eq_free]; exact inv.free m
    freeNodup := inv.freeNodup
    tracked := fun m page there => inv.tracked m page (by rwa [Place.closed_page?] at there)
    known := inv.known
    mapped := by
      intro page mine m
      obtain ⟨apart, owned⟩ := owns.mp mine
      rw [word, if_neg apart, Place.closed_eq_resident, inv.mapped page owned]
      exact (and_iff_left apart).symm
    locked := by
      intro page mine
      obtain ⟨apart, owned⟩ := owns.mp mine
      rw [word, if_neg apart, inv.locked page owned]
      exact exists_congr fun m => by rw [locks, and_iff_left apart]
    lockedOnce := fun m m' page first second =>
      inv.lockedOnce m m' page ((locks m page).mp first).1 ((locks m' page).mp second).1
    owned := by
      intro m page there
      rw [Place.closed_eq_resident, locks, ← or_and_right] at there
      exact owns.mpr ⟨there.2, inv.owned m page there.1⟩
    gone := by
      intro m page there
      change (pool.pageTable.deregisterFile fd).shape[page.fd]? = some none
      rw [PageTable.deregisterFile_shape, List.getElem?_set]
      rcases Place.closed_eq_orphan.mp there with orphan | ⟨rfl, here⟩
      · have gone := inv.gone m page orphan
        split_ifs with same inside
        · rfl
        · rw [← same, List.getElem?_eq_none (Nat.not_lt.mp inside)] at gone
          cases gone
        · exact gone
      · have owned := inv.owned m page (here.imp_right Or.inl)
        have inside : page.fd < pool.pageTable.shape.length := by
          refine Nat.lt_of_not_le fun past => owned.registered (PageTable.word?_eq_none_iff.mpr fun n there => ?_)
          rw [List.getElem?_eq_none past] at there
          cases there
        rw [if_pos rfl, if_pos inside]
    described := fun m page there => inv.described m page (by rwa [Place.closed_page?] at there)
    settled := fun m page there => inv.settled m page (Place.closed_eq_resident.mp there).1
    stuck := fun m page there => inv.stuck m page (Place.closed_eq_stuck.mp there).1
    counted := by
      intro m page there
      rw [Place.closed_eq_resident, Place.closed_eq_orphan] at there
      rcases there with ⟨here, _⟩ | orphan | ⟨_, here | here⟩
      · exact inv.counted m page (Or.inl here)
      · exact inv.counted m page (Or.inr orphan)
      · exact inv.counted m page (Or.inl here)
      · rw [unheld here]
        exact inv.stuck m page here
    pinned := by
      intro page m member
      rw [Place.closed_eq_resident, Place.closed_eq_orphan]
      by_cases same : page.fd = fd
      · exact Or.inr ((inv.pinned page m member).symm.imp_right fun here => ⟨same, Or.inl here⟩)
      · exact (inv.pinned page m member).imp (⟨·, same⟩) Or.inl }

omit [Replacer R] [LawfulReplacer R] in
/-- The bytes of the other files are where they were. -/
theorem Coherent.closeFile {K : ℕ → ℕ → Prop} {content : Content} (coherent : Coherent K content pool place)
    {disk : DiskManager} (files : ∀ other, disk.file other = pool.disk.file other)
    (sizes : ∀ other, disk.getFileSizeFast other = pool.disk.getFileSizeFast other) :
    Coherent (fun other i => other ≠ fd ∧ K other i) content { pool.closeFile fd with disk := disk }
      (fun m => (place m).closed fd) := by
  have synced {page : Page} (before : pool.disk.Synced K content page) :
      disk.Synced (fun other i => other ≠ fd ∧ K other i) content page := by
    intro i small known
    rw [DiskManager.byte, files]
    exact before i small known.2
  refine ⟨?_, ?_, ?_, ?_⟩
  · intro other i known past
    dsimp only at past
    rw [sizes] at past
    exact coherent.tail other i known.2 past
  · exact fun m page there i small known =>
      coherent.frame m page (Place.closed_eq_resident.mp there).1 i small known.2
  · exact fun m page there clean => synced (coherent.clean m page (Place.closed_eq_resident.mp there).1 clean)
  · intro page partition gone
    by_cases same : page.fd = fd
    · exact fun i _ known => absurd same known.1
    · exact synced (coherent.away page partition fun m here => gone m (Place.closed_eq_resident.mpr ⟨here, same⟩))

end BufferPool

end Gbp
