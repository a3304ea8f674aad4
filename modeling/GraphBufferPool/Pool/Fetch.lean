import GraphBufferPool.Pool.Transitions

/-! # What a fetch returns

The states of the fetch machines from a pool that meets its invariant. A resident page is pinned at
once; for an empty mapping every machine goes through the same load: lock, take a frame, read,
publish. A page whose mapping was left BUSY is never fetched.
-/

namespace Gbp.BufferPool

open Function LawfulReplacer

variable {R : Type}

/-- The pool after state `Begin` locked the empty mapping of `page`. -/
def lockPage (pool : BufferPool R) (page : Page) : BufferPool R :=
  { pool with pageTable := pool.pageTable.setWord page .busy }

/-- The pool after `Pin` counted a reference to frame `m` and promoted it. -/
def withPin (pool : BufferPool R) (m : ℕ) (replacer : R) : BufferPool R :=
  { pool with
    pageTable := pool.pageTable.setPte m ((pool.pageTable.ptes m).fetchAdd 1)
    replacer := replacer }

variable [Replacer R]

/-- The pool after bytes were stored in frame `m`, which then holds `bytes`. -/
def withBytes (pool : BufferPool R) (m : ℕ) (bytes : Bytes) : BufferPool R :=
  { pool with memory := update pool.memory m bytes }

/-- States `Initing` and `Evicting`: the frame taken. -/
def takeFrame (pool : BufferPool R) : Except Stop (ℕ × BufferPool R) := do
  let (phase, pool) ← pool.initingPhase
  match phase with
  | .loading m => return (m, pool)
  | .evicting m => return (m, ← pool.evictingPhase m)
  | _ => throw .assertion

/-- The load of a page with an empty mapping. -/
def loadPage (pool : BufferPool R) (page : Page) : Except Stop (ℕ × BufferPool R) := do
  let (m, pool) ← (pool.lockPage page).takeFrame
  return (m, ← (← pool.readPage page m).publish page m)

variable [LawfulReplacer R]

/-- What a replacer keeps when it promotes a frame. -/
structure SameFrames (r r' : R) : Prop where
  capacity : LawfulReplacer.capacity r' = LawfulReplacer.capacity r
  frames : ∀ k, k ∈ frames r' ↔ k ∈ frames r
  calm : Calm r'
  ready : Ready r → Ready r'

variable {pool : BufferPool R} {place : ℕ → Place} {pins : List (Page × ℕ)} {page : Page} {m : ℕ}

/-- A resident page is pinned at once, whether its mapping is locked on the way or not. -/
theorem Inv.exists_pin (inv : Inv pool place pins) (here : place m = .resident page) :
    ∃ r, SameFrames pool.replacer r ∧ pool.pin page = .ok (some m, pool.withPin m r) ∧
      ∃ locked, pool.beginPhase page = .ok (locked, .finish m, pool.withPin m r) := by
  have word := inv.word?_resident here
  obtain ⟨free, initialized⟩ := inv.settled m page here
  have described := inv.described m page (by simp [here, Place.page?])
  have describes : (pool.pageTable.ptes m).describes page := (PTE.describes_iff _ _).mpr described
  have linked := inv.tracked m page (by simp [here, Place.page?])
  obtain ⟨r, promoted, sameCapacity, sameFrames, calm, ready⟩ := promote_ok _ m inv.calm linked
  have pinned : pool.pin page = .ok (some m, pool.withPin m r) := by
    simp only [pin, PageTable.load_eq word, ok_bind, PageTable.incRefCount1, free, describes,
      Bool.false_eq_true, if_true, if_false, promoted, check_true]
    rfl
  refine ⟨r, ⟨sameCapacity, sameFrames, calm, ready⟩, pinned, ?_⟩
  by_cases held : (pool.pageTable.ptes m).refCount = 0
  · refine ⟨true, ?_⟩
    simp only [beginPhase, PageTable.lockMapping_unpinned word free held, ok_bind,
      PageTable.unLockMapping_lockFrame word free held described, check_true]
    rw [pinned]
    rfl
  · refine ⟨false, ?_⟩
    simp only [beginPhase, PageTable.lockMapping_pinned word held initialized, ok_bind]
    rw [pinned]
    rfl

omit [LawfulReplacer R] in
theorem pin_empty (empty : pool.pageTable.word? page = some .empty) :
    pool.pin page = .ok (none, pool) := by
  rw [pin, PageTable.load_eq empty]
  rfl

omit [LawfulReplacer R] in
theorem beginPhase_empty (empty : pool.pageTable.word? page = some .empty) :
    pool.beginPhase page = .ok (true, .initing, pool.lockPage page) := by
  rw [beginPhase, PageTable.lockMapping_empty empty]
  rfl

omit [LawfulReplacer R] in
theorem pin_busy (busy : pool.pageTable.word? page = some .busy) :
    pool.pin page = .ok (none, pool) := by
  rw [pin, PageTable.load_eq busy]
  rfl

omit [LawfulReplacer R] in
theorem beginPhase_busy (busy : pool.pageTable.word? page = some .busy) :
    pool.beginPhase page = .ok (false, .begin, pool) := by
  simp only [beginPhase, PageTable.lockMapping_busy busy, ok_bind]
  rw [pin_busy busy]
  rfl

omit [Replacer R] [LawfulReplacer R] in
theorem sameFiles_lockPage (pool : BufferPool R) (page : Page) :
    SameFiles pool (pool.lockPage page) :=
  ⟨rfl, rfl, rfl, fun _ => rfl, PageTable.setWord_shape _⟩

/-- The disk after the write-back of frame `m`, which holds `old`, if it is dirty. -/
def Spilled (pool : BufferPool R) (old : Page) (m : ℕ) (disk : DiskManager) : Prop :=
  if (pool.pageTable.ptes m).dirty then
    pool.disk.write old.fd (old.fpageId * pageSize) (pool.memory m) = .ok disk
  else disk = pool.disk

/-- What taking a frame for `page` does: a free frame is polled, or the page of an unpinned frame is
evicted. -/
structure Taken (pool : BufferPool R) (place : ℕ → Place) (page : Page) (m : ℕ)
    (pool' : BufferPool R) : Prop where
  files : SameFiles pool pool'
  source : place m = .free ∧ pool'.disk = pool.disk ∨ ∃ old, place m = .resident old ∧
    (pool.pageTable.ptes m).refCount = 0 ∧ Spilled pool old m pool'.disk
  words : ∀ other, pool.Owns other → pool'.pageTable.word? other =
    if other = page then some .busy
    else if place m = .resident other then some .empty else pool.pageTable.word? other
  entries : ∀ k ≠ m, pool'.pageTable.ptes k = pool.pageTable.ptes k
  freeList : ∀ k, k ∈ pool'.freeList ↔ k ∈ pool.freeList ∧ k ≠ m
  freeNodup : pool'.freeList.Nodup
  capacity : LawfulReplacer.capacity pool'.replacer = LawfulReplacer.capacity pool.replacer
  linked : ∀ k ≠ m, k ∈ frames pool'.replacer ↔ k ∈ frames pool.replacer
  untracked : Strict pool place → m ∉ frames pool'.replacer
  calm : Calm pool'.replacer
  ready : Ready pool.replacer → Ready pool'.replacer
  memory : pool'.memory = pool.memory
  handles : DiskManager.SameHandles pool.disk pool'.disk

theorem Taken.inv {pool' : BufferPool R} (taken : Taken pool place page m pool')
    (inv : Inv pool place pins) (owns : pool.Owns page)
    (empty : pool.pageTable.word? page = some .empty) :
    Inv pool' (update place m (.loading page)) pins :=
  inv.take owns empty taken.files
    (taken.source.imp And.left fun ⟨old, here, unpinned, _⟩ => ⟨old, here, unpinned⟩) taken.words
    taken.entries taken.freeList taken.freeNodup taken.capacity taken.linked taken.calm

/-- `Victim` can be called on a pool without free frames. -/
def Able (pool : BufferPool R) (place : ℕ → Place) : Prop :=
  pool.freeList = [] → Strict pool place ∧ Ready pool.replacer

/-- The tracked frames as `Victim` finds them while the empty mapping of `page` is locked. -/
theorem Inv.settled_lockPage (inv : Inv pool place pins) (strict : Strict pool place)
    (owns : pool.Owns page) (empty : pool.pageTable.word? page = some .empty) {k : ℕ}
    (linked : k ∈ frames pool.replacer) : (pool.lockPage page).pageTable.Settled k := by
  have used := strict k linked
  cases here : place k with
  | absent | free | loading _ => simp [here, Place.page?] at used
  | resident old =>
    have described := inv.described k old (by simp [here, Place.page?])
    obtain ⟨free, initialized⟩ := inv.settled k old here
    refine .resident ?_ free initialized
    rw [lockPage, PageTable.setWord_ptes, described,
      owns.setWord_word? (inv.owned k old (Or.inl here)), inv.word?_resident here, if_neg]
    rintro rfl
    rw [inv.word?_resident here] at empty
    cases empty
  | stuck old =>
    have described := inv.described k old (by simp [here, Place.page?])
    have ownsOld := inv.owned k old (Or.inr (by simp [here]))
    refine .locked ?_
    rw [lockPage, PageTable.setWord_ptes, described, owns.setWord_word? ownsOld,
      (inv.locked old ownsOld).mpr ⟨k, by simp [here]⟩]
    split_ifs <;> rfl
  | orphan old =>
    refine .orphan ?_
    rw [lockPage, PageTable.setWord_ptes, inv.described k old (by simp [here, Place.page?]),
      PageTable.setWord_word?_eq_none]
    exact inv.word?_orphan here

/-- A frame `Victim` may take holds an unpinned page. -/
theorem Inv.resident_of_evictable (inv : Inv pool place pins) (strict : Strict pool place)
    (owns : pool.Owns page) {k : ℕ} (linked : k ∈ frames pool.replacer) (evictable : (pool.lockPage page).pageTable.Evictable k) :
    place k = .resident (pool.pageTable.ptes k).page := by
  obtain ⟨word, _, _⟩ := evictable
  rw [lockPage, PageTable.setWord_ptes] at word
  have used := strict k linked
  cases here : place k with
  | absent | free | loading _ => simp [here, Place.page?] at used
  | resident old => rw [inv.described k old (by simp [here, Place.page?])]
  | stuck old =>
    have described := inv.described k old (by simp [here, Place.page?])
    have ownsOld := inv.owned k old (Or.inr (by simp [here]))
    rw [described, owns.setWord_word? ownsOld, (inv.locked old ownsOld).mpr ⟨k, by simp [here]⟩]
      at word
    split_ifs at word <;> cases word
  | orphan old =>
    have gone := inv.word?_orphan here
    rw [inv.described k old (by simp [here, Place.page?]),
      (PageTable.setWord_word?_eq_none MapWord.busy).mpr gone] at word
    cases word

omit [Replacer R] [LawfulReplacer R] in
/-- The write-back and the deletion of `Evicting`. -/
theorem exists_evictingPhase (pool : BufferPool R) {old : Page} (described : (pool.pageTable.ptes m).page = old)
    (busy : pool.pageTable.word? old = some .busy) (valid : pool.disk.validFD old.fd = true) :
    ∃ disk, Spilled pool old m disk ∧ DiskManager.SameHandles pool.disk disk ∧
      pool.evictingPhase m = .ok { pool with
        pageTable := pool.pageTable.setWord old .empty
        disk := disk } := by
  subst described
  cases dirty : (pool.pageTable.ptes m).dirty with
  | true =>
    obtain ⟨disk, written, same, _⟩ := DiskManager.exists_write valid
      ((pool.pageTable.ptes m).page.fpageId * pageSize) (pool.memory m)
    refine ⟨disk, by simpa [Spilled, dirty] using written, same, ?_⟩
    simp only [evictingPhase, dirty, if_true, written, ok_bind, PageTable.deleteMapping_busy busy,
      check_true]
    rfl
  | false =>
    refine ⟨pool.disk, by simp [Spilled, dirty], .refl _, ?_⟩
    simp only [evictingPhase, dirty, Bool.false_eq_true, if_false, pure_bind,
      PageTable.deleteMapping_busy busy, ok_bind, check_true]
    rfl

/-- Evicting the victim that the replacer chose while the empty mapping of `page` was locked. -/
theorem Inv.taken_of_victim (inv : Inv pool place pins) (able : Able pool place)
    (owns : pool.Owns page) (empty : pool.pageTable.word? page = some .empty)
    (full : pool.freeList = []) {r : R} {pageTable : PageTable}
    (chosen : Replacer.victim pool.replacer (pool.lockPage page).pageTable =
      .ok (some m, r, pageTable)) :
    ∃ pool', evictingPhase { pool with
        freeList := []
        pageTable := pageTable
        replacer := r } m = .ok pool' ∧ Taken pool place page m pool' := by
  obtain ⟨strict, ready⟩ := able full
  obtain ⟨linked, evictable, locked, sameCapacity, sameFrames, ready'⟩ :=
    victim_sound _ _ m r pageTable ready
      (fun k linked => inv.settled_lockPage strict owns empty linked) chosen
  have here := inv.resident_of_evictable strict owns linked evictable
  set old := (pool.pageTable.ptes m).page with old_eq
  have ownsOld := inv.owned m old (Or.inl here)
  have apart : old ≠ page := by
    intro same
    have word := inv.word?_resident here
    rw [same, empty] at word
    cases word
  have unpinned : (pool.pageTable.ptes m).refCount = 0 := evictable.2.2
  have word : (pool.pageTable.setWord page .busy).word? old = some (.frame m) := by
    rw [owns.setWord_word? ownsOld, if_neg apart]
    exact inv.word?_resident here
  have apartEntry : ((pool.lockPage page).pageTable.ptes m).page = old := rfl
  rw [apartEntry] at locked
  subst locked
  obtain ⟨disk, written, handles, evicted⟩ := exists_evictingPhase (m := m)
    { pool with
      freeList := []
      pageTable := (pool.lockPage page).pageTable.lockFrame old m
      replacer := r }
    (by simp [PageTable.lockFrame, lockPage, PTE.page, old_eq])
    (PageTable.setWord_word?_self word) ownsOld.valid
  refine ⟨_, evicted, ?_⟩
  have table : ((pool.lockPage page).pageTable.lockFrame old m).setWord old .empty =
      ((pool.pageTable.setWord page .busy).setWord old .empty).setPte m
        { pool.pageTable.ptes m with busy := true } := by
    rw [PageTable.lockFrame, PageTable.setPte_setWord, PageTable.setWord_setWord]
    rfl
  dsimp only at evicted ⊢
  rw [table]
  have lockedOwns (other : Page) : (pool.lockPage page).Owns other ↔ pool.Owns other :=
    (sameFiles_lockPage pool page).owns
  refine {
    files := ⟨rfl, rfl, rfl, handles.valid, by simp⟩
    source := Or.inr ⟨old, here, unpinned, ?_⟩
    words := ?_
    entries := fun k other => update_of_ne other ..
    freeList := by simp [full]
    freeNodup := List.nodup_nil
    capacity := sameCapacity
    linked := fun k other => by simp [sameFrames, other]
    untracked := fun _ linked => ((sameFrames m).mp linked).2 rfl
    calm := calm_of_ready r ready'
    ready := fun _ => ready'
    memory := rfl
    handles := handles }
  · have sameDirty : (((pool.lockPage page).pageTable.lockFrame old m).ptes m).dirty =
        (pool.pageTable.ptes m).dirty := by simp [PageTable.lockFrame, lockPage]
    simpa only [Spilled, sameDirty] using written
  · intro other owned
    have first := ((lockedOwns old).mpr ownsOld).setWord_word? ((lockedOwns other).mpr owned) .empty
    have second := owns.setWord_word? owned .busy
    simp only [lockPage] at first
    dsimp only
    rw [PageTable.setPte_word?, first, second, here]
    by_cases requested : other = page
    · subst requested
      simp [Ne.symm apart]
    · by_cases same : other = old
      · subst same
        simp [requested]
      · simp [requested, same, Ne.symm same]

/-- Polling a free frame. -/
theorem Inv.taken_of_free (inv : Inv pool place pins) (owns : pool.Owns page)
    {rest : List ℕ} (first : pool.freeList = m :: rest) :
    Taken pool place page m { pool.lockPage page with freeList := rest } := by
  have free : place m = .free := (inv.free m).mp (by rw [first]; exact List.mem_cons_self ..)
  have nodup := inv.freeNodup
  rw [first, List.nodup_cons] at nodup
  exact {
    files := ⟨rfl, rfl, rfl, fun _ => rfl, PageTable.setWord_shape _⟩
    source := Or.inl ⟨free, rfl⟩
    words := by
      intro other owned
      rw [free, if_neg (show ¬ Place.free = .resident other by nofun)]
      exact owns.setWord_word? owned .busy
    entries := fun _ _ => rfl
    freeList := by
      intro k
      rw [first, List.mem_cons]
      constructor
      · intro later
        refine ⟨Or.inr later, ?_⟩
        rintro rfl
        exact nodup.1 later
      · rintro ⟨rfl | later, other⟩
        · exact absurd rfl other
        · exact later
    freeNodup := nodup.2
    capacity := rfl
    linked := fun _ _ => Iff.rfl
    untracked := fun strict linked => strict m linked (by simp [free, Place.page?])
    calm := inv.calm
    ready := id
    memory := rfl
    handles := .refl _ }

/-- Whatever frame a fetch of an unmapped page takes, it takes it as `Taken` says. -/
theorem Inv.takeFrame_sound (inv : Inv pool place pins) (able : Able pool place)
    (owns : pool.Owns page) (empty : pool.pageTable.word? page = some .empty)
    {pool' : BufferPool R}
    (ran : (pool.lockPage page).takeFrame = .ok (m, pool')) : Taken pool place page m pool' := by
  obtain ⟨⟨phase, middle⟩, chosen, ran⟩ := bind_eq_ok.mp ran
  have sameFree : (pool.lockPage page).freeList = pool.freeList := rfl
  unfold initingPhase at chosen
  rw [sameFree] at chosen
  cases free : pool.freeList with
  | cons first rest =>
    rw [free] at chosen
    cases chosen
    cases ran
    exact inv.taken_of_free owns free
  | nil =>
    rw [free] at chosen
    obtain ⟨⟨victim, r, pageTable⟩, picked, chosen⟩ := bind_eq_ok.mp chosen
    cases victim with
    | none => cases chosen
    | some victim =>
      cases chosen
      obtain ⟨evicted, there, taken⟩ := inv.taken_of_victim able owns empty free picked
      obtain ⟨_, ran, result⟩ := bind_eq_ok.mp ran
      cases result
      cases there.symm.trans ran
      exact taken

/-- A frame is free or holds an unpinned page. -/
def Available (pool : BufferPool R) (place : ℕ → Place) : Prop :=
  pool.freeList ≠ [] ∨ ∃ m old, place m = .resident old ∧ (pool.pageTable.ptes m).refCount = 0

/-- A fetch takes a frame wherever one is available and no frame is left from a closed file. -/
theorem Inv.takeFrame_complete (inv : Inv pool place pins) (able : Able pool place)
    (owns : pool.Owns page) (empty : pool.pageTable.word? page = some .empty)
    (available : Available pool place)
    (registered : ∀ m old, place m ≠ .orphan old) :
    ∃ m pool', (pool.lockPage page).takeFrame = .ok (m, pool') := by
  have sameFree : (pool.lockPage page).freeList = pool.freeList := rfl
  unfold takeFrame initingPhase
  rw [sameFree]
  cases free : pool.freeList with
  | cons first rest => exact ⟨first, _, rfl⟩
  | nil =>
    obtain ⟨k, old, here, unpinned⟩ := available.resolve_left (not_not.mpr free)
    obtain ⟨strict, ready⟩ := able free
    have described := inv.described k old (by simp [here, Place.page?])
    have word := inv.word?_resident here
    have evictable : (pool.lockPage page).pageTable.Evictable k := by
      refine ⟨?_, (inv.settled k old here).1, unpinned⟩
      rw [lockPage, PageTable.setWord_ptes, described,
        owns.setWord_word? (inv.owned k old (Or.inl here)), if_neg, word]
      rintro rfl
      rw [word] at empty
      cases empty
    have known (i : ℕ) (linked : i ∈ frames pool.replacer) : (pool.lockPage page).pageTable.word?
        ((pool.lockPage page).pageTable.ptes i).page ≠ none := by
      rw [lockPage, PageTable.setWord_ptes, Ne, PageTable.setWord_word?_eq_none]
      have used := strict i linked
      cases there : place i with
      | absent | free | loading _ => simp [there, Place.page?] at used
      | resident other =>
        rw [inv.described i other (by simp [there, Place.page?])]
        exact (inv.owned i other (Or.inl there)).registered
      | stuck other =>
        rw [inv.described i other (by simp [there, Place.page?])]
        exact (inv.owned i other (Or.inr (by simp [there]))).registered
      | orphan other => exact absurd there (registered i other)
    obtain ⟨m, r, pageTable, picked⟩ := victim_complete pool.replacer _ ready
      (fun i linked => inv.settled_lockPage strict owns empty linked) known
      ⟨k, inv.tracked k old (by simp [here, Place.page?]), evictable⟩
    obtain ⟨evicted, there, _⟩ := inv.taken_of_victim able owns empty free picked
    refine ⟨m, evicted, ?_⟩
    have samePicked : Replacer.victim (pool.lockPage page).replacer (pool.lockPage page).pageTable =
      .ok (some m, r, pageTable) := picked
    simp only [samePicked, ok_bind]
    exact (congrArg (fun result => result >>= fun pool => Except.ok (m, pool)) there).trans rfl

/-- What the whole load of `page` does, `bytes` being what was read into the frame taken. -/
structure Loaded (pool : BufferPool R) (place : ℕ → Place) (page : Page) (m : ℕ) (bytes : Bytes)
    (pool' : BufferPool R) : Prop where
  files : SameFiles pool pool'
  source : place m = .free ∧ pool'.disk = pool.disk ∨ ∃ old, place m = .resident old ∧
    (pool.pageTable.ptes m).refCount = 0 ∧ Spilled pool old m pool'.disk
  entry : pool'.pageTable.ptes m = .loaded page
  entries : ∀ k ≠ m, pool'.pageTable.ptes k = pool.pageTable.ptes k
  freeList : ∀ k, k ∈ pool'.freeList ↔ k ∈ pool.freeList ∧ k ≠ m
  strict : Strict pool place → Strict pool' (update place m (.resident page))
  ready : Ready pool.replacer → Ready pool'.replacer
  memory : pool'.memory = update pool.memory m bytes
  handles : DiskManager.SameHandles pool.disk pool'.disk

/-- Other bytes in a frame keep the invariant. -/
theorem Inv.withBytes (inv : Inv pool place pins) (m : ℕ) (bytes : Bytes) :
    Inv (pool.withBytes m bytes) place pins := by
  have same : SameFiles pool (pool.withBytes m bytes) := ⟨rfl, rfl, rfl, fun _ => rfl, rfl⟩
  exact { inv with
    mapped := fun page mine => inv.mapped page (same.owns.mp mine)
    locked := fun page mine => inv.locked page (same.owns.mp mine)
    owned := fun k page there => same.owns.mpr (inv.owned k page there) }

/-- What publishing the frame `m` with the page `page` does, once its bytes are in the frame. -/
structure Published (pool : BufferPool R) (page : Page) (m : ℕ) (pool' : BufferPool R) : Prop where
  files : SameFiles pool pool'
  disk : pool'.disk = pool.disk
  entry : pool'.pageTable.ptes m = .loaded page
  entries : ∀ k ≠ m, pool'.pageTable.ptes k = pool.pageTable.ptes k
  freeList : pool'.freeList = pool.freeList
  linked : ∀ k, k ∈ frames pool'.replacer ↔ k = m ∨ k ∈ frames pool.replacer
  ready : Ready pool.replacer → Ready pool'.replacer
  memory : pool'.memory = pool.memory

/-- Publishing a taken frame. -/
theorem Inv.exists_publish (inv : Inv pool place pins) (here : place m = .loading page) :
    ∃ pool', pool.publish page m = .ok pool' ∧ Published pool page m pool' ∧
      Inv pool' (update place m (.resident page)) ((page, m) :: pins) := by
  have owns : pool.Owns page := inv.owned m page (Or.inr (by simp [here]))
  have busy : pool.pageTable.word? page = some .busy := (inv.locked page owns).mpr ⟨m, by simp [here]⟩
  have inside : m < LawfulReplacer.capacity pool.replacer := by
    rw [inv.capacity]
    refine Nat.lt_of_not_le fun past => ?_
    rw [(inv.absent m).mpr past] at here
    cases here
  obtain ⟨r, inserted, sameCapacity, linked, calm, ready⟩ := insert_ok pool.replacer m inv.calm inside
  have files : SameFiles pool { pool with
      pageTable := (pool.pageTable.setPte m (.loaded page)).setWord page (.frame m)
      replacer := r } := ⟨rfl, rfl, rfl, fun _ => rfl, PageTable.setWord_shape _⟩
  refine ⟨_, ?_, ⟨files, rfl, update_self .., fun k other => update_of_ne other .., rfl, linked, ready, rfl⟩, ?_⟩
  · have marked : (pool.pageTable.setPte m (.loaded page)).word? page = some .busy := busy
    simp only [BufferPool.publish, inserted, ok_bind, check_true, PageTable.createMapping_busy marked]
    rfl
  · exact inv.publish here files (fun other owned => owns.setWord_word? owned _) (update_self ..)
      (fun k other => update_of_ne other ..) rfl sameCapacity linked calm

/-- Publishing the frame taken for `page` once its bytes are read. -/
theorem Taken.exists_publish {taken : BufferPool R} (took : Taken pool place page m taken)
    (inv : Inv pool place pins) (owns : pool.Owns page)
    (empty : pool.pageTable.word? page = some .empty) (bytes : Bytes) :
    ∃ pool', (taken.withBytes m bytes).publish page m = .ok pool' ∧
      pool'.disk = taken.disk ∧ Loaded pool place page m bytes pool' ∧
        Inv pool' (update place m (.resident page)) ((page, m) :: pins) := by
  have middle := (took.inv inv owns empty).withBytes m bytes
  obtain ⟨pool', ran, published, inv'⟩ := middle.exists_publish (update_self ..)
  refine ⟨pool', ran, published.disk, ?_, by rwa [update_idem] at inv'⟩
  exact {
    files := by
      have stored : SameFiles taken (taken.withBytes m bytes) := ⟨rfl, rfl, rfl, fun _ => rfl, rfl⟩
      exact (took.files.trans stored).trans published.files
    source := took.source.imp (And.imp_right published.disk.trans) fun ⟨old, here, unpinned, spilled⟩ =>
      ⟨old, here, unpinned, by rwa [published.disk]⟩
    entry := published.entry
    entries := fun k other => (published.entries k other).trans (took.entries k other)
    freeList := fun k => by
      rw [published.freeList]
      exact took.freeList k
    strict := by
      intro strict k member
      by_cases mine : k = m
      · subst mine
        simp [Place.page?]
      · rw [update_of_ne mine]
        have later := ((published.linked k).mp member).resolve_left mine
        exact strict k ((took.linked k mine).mp later)
    ready := fun before => published.ready (took.ready before)
    memory := by
      rw [published.memory, withBytes, took.memory]
    handles := published.disk ▸ took.handles }

/-- The frame bytes after the synchronous read of `page`. -/
def ReadFrom (disk : DiskManager) (page : Page) (bytes : Bytes) : Prop :=
  ∀ i < pageSize, bytes i = disk.byte page.fd (page.fpageId * pageSize + i)

/-- The load of an unmapped page by `FetchPageSync` and `FetchPageSync1`. -/
theorem Inv.loadPage_sound (inv : Inv pool place pins) (able : Able pool place)
    (owns : pool.Owns page) (empty : pool.pageTable.word? page = some .empty)
    {pool' : BufferPool R} (ran : pool.loadPage page = .ok (m, pool')) :
    ∃ bytes, ReadFrom pool'.disk page bytes ∧ Loaded pool place page m bytes pool' ∧
      Inv pool' (update place m (.resident page)) ((page, m) :: pins) := by
  obtain ⟨⟨k, taken⟩, took, ran⟩ := bind_eq_ok.mp ran
  obtain ⟨read, filled, ran⟩ := bind_eq_ok.mp ran
  obtain ⟨published, done, result⟩ := bind_eq_ok.mp ran
  cases result
  have took := inv.takeFrame_sound able owns empty took
  obtain ⟨bytes, readOk, same⟩ := DiskManager.exists_read
    ((took.handles.valid _).trans owns.valid) (page.fpageId * pageSize) (taken.memory m)
  obtain ⟨pool'', publishOk, sameDisk, loaded, inv'⟩ := took.exists_publish inv owns empty bytes
  simp only [readPage, readOk, ok_bind] at filled
  cases filled
  cases publishOk.symm.trans done
  exact ⟨bytes, fun i small => (same i small).trans (by rw [sameDisk]), loaded, inv'⟩

/-- Once a frame is taken, the load returns. -/
theorem Inv.loadPage_taken (inv : Inv pool place pins) (able : Able pool place)
    (owns : pool.Owns page) (empty : pool.pageTable.word? page = some .empty) {taken : BufferPool R}
    (ran : (pool.lockPage page).takeFrame = .ok (m, taken)) : ∃ pool', pool.loadPage page = .ok (m, pool') := by
  have took := inv.takeFrame_sound able owns empty ran
  obtain ⟨bytes, readOk, same⟩ := DiskManager.exists_read
    ((took.handles.valid _).trans owns.valid) (page.fpageId * pageSize) (taken.memory m)
  obtain ⟨pool', publishOk, _⟩ := took.exists_publish inv owns empty bytes
  refine ⟨pool', ?_⟩
  simp only [loadPage, ran, ok_bind, readPage, readOk]
  exact (congrArg (fun result => result >>= fun pool => Except.ok (m, pool)) publishOk).trans rfl

theorem Inv.loadPage_complete (inv : Inv pool place pins) (able : Able pool place)
    (owns : pool.Owns page) (empty : pool.pageTable.word? page = some .empty)
    (available : Available pool place) (registered : ∀ m old, place m ≠ .orphan old) :
    ∃ m pool', pool.loadPage page = .ok (m, pool') := by
  obtain ⟨m, taken, ran⟩ := inv.takeFrame_complete able owns empty available registered
  exact ⟨m, inv.loadPage_taken able owns empty ran⟩

/-- A free frame is all a load needs. -/
theorem Inv.loadPage_free (inv : Inv pool place pins) (able : Able pool place)
    (owns : pool.Owns page) (empty : pool.pageTable.word? page = some .empty) (free : pool.freeList ≠ []) :
    ∃ m pool', pool.loadPage page = .ok (m, pool') := by
  obtain ⟨m, rest, here⟩ := List.exists_cons_of_ne_nil free
  have ran : (pool.lockPage page).takeFrame = .ok (m, { pool.lockPage page with freeList := rest }) := by
    have sameFree : (pool.lockPage page).freeList = m :: rest := here
    rw [takeFrame, initingPhase, sameFree]
    rfl
  exact ⟨m, inv.loadPage_taken able owns empty ran⟩

end Gbp.BufferPool
