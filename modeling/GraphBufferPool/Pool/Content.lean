import GraphBufferPool.Pool.FetchSync

/-! # The bytes of the pages

`Coherent` relates a pool to the bytes a caller has written: a resident page has them in its frame, a
page that is clean or not resident has them on disk. `K` says which positions of the files this is
claimed of, so that the same lemmas serve load paths that fill a whole frame and load paths that fill
the in-file part of it. Fetches, evictions and unpins keep the relation for the same bytes.
-/

namespace Gbp

/-- The bytes of every file, by handle and position. -/
abbrev Content := ℕ → ℕ → UInt8

/-- The position of a byte of a page in its file. -/
def Page.position (page : Page) (i : ℕ) : ℕ := page.fpageId * pageSize + i

/-- A position belongs to one page of its file. -/
theorem Page.position_div {page : Page} {i : ℕ} (small : i < pageSize) :
    page.position i / pageSize = page.fpageId := by
  unfold Page.position pageSize
  unfold pageSize at small
  omega

/-- The position is in the page. -/
def Page.Contains (page : Page) (fd i : ℕ) : Prop := fd = page.fd ∧ i / pageSize = page.fpageId

instance (page : Page) (fd i : ℕ) : Decidable (page.Contains fd i) := inferInstanceAs (Decidable (_ ∧ _))

theorem Page.not_contains {page other : Page} (apart : other ≠ page) {i : ℕ} (small : i < pageSize) :
    ¬ page.Contains other.fd (other.position i) := by
  rintro ⟨sameFd, sameId⟩
  rw [Page.position_div small] at sameId
  apply apart
  cases page
  cases other
  simp_all

variable {K K' : ℕ → ℕ → Prop} {content content' : Content}

namespace DiskManager

/-- The disk has the bytes of a page. -/
def Synced (K : ℕ → ℕ → Prop) (content : Content) (disk : DiskManager) (page : Page) : Prop :=
  ∀ i < pageSize, K page.fd (page.position i) →
    disk.byte page.fd (page.position i) = content page.fd (page.position i)

/-- Past the recorded size of a file there are zeros. -/
def Tail (K : ℕ → ℕ → Prop) (content : Content) (disk : DiskManager) : Prop :=
  ∀ fd i, K fd i → disk.getFileSizeFast fd ≤ i → content fd i = 0

variable {disk disk' : DiskManager} {page : Page}

theorem SameHandles.tail (same : SameHandles disk disk') (tail : disk.Tail K content) :
    disk'.Tail K content :=
  fun fd i known past => tail fd i known (same.size fd ▸ past)

/-- Writing the bytes of a page back brings the disk up to date for it, and for no page out of
date. -/
theorem synced_of_write (valid : disk.validFD page.fd = true) (tail : disk.Tail K content)
    {data : Bytes} (held : ∀ i < pageSize, K page.fd (page.position i) →
      data i = content page.fd (page.position i))
    (wrote : disk.write page.fd (page.fpageId * pageSize) data = .ok disk') :
    disk'.Synced K content page ∧ ∀ other, disk.Synced K content other → disk'.Synced K content other := by
  obtain ⟨_, wrote', same, files⟩ := exists_write valid (page.fpageId * pageSize) data
  cases wrote'.symm.trans wrote
  have after (fd i : ℕ) (known : K fd i) : disk'.byte fd i = content fd i ∨
      disk'.byte fd i = if fd = page.fd ∧ page.position 0 ≤ i ∧ i < page.position pageSize then
        data (i - page.position 0) else disk.byte fd i := by
    by_cases here : fd = page.fd
    · subst here
      simp only [byte, files, if_true, true_and, Page.position, Nat.add_zero]
      rcases RWSysCall.write_byte_or (disk.getFileSizeFast page.fd) (disk.file page.fd)
        (page.fpageId * pageSize) data pageSize i with stored | ⟨past, zero⟩
      · exact Or.inr stored
      · exact Or.inl (zero.trans (tail page.fd i known past).symm)
    · simp [byte, files, here]
  constructor
  · intro i small known
    rcases after page.fd _ known with done | stored
    · exact done
    · have inside : page.fd = page.fd ∧ page.position 0 ≤ page.position i ∧
          page.position i < page.position pageSize := by
        simp only [Page.position, true_and]
        omega
      rw [stored, if_pos inside, ← held i small known]
      congr 1
      simp only [Page.position]
      omega
  · intro other before i small known
    rcases after other.fd _ known with done | stored
    · exact done
    · rw [stored]
      split_ifs with inside
      · obtain ⟨sameFd, low, high⟩ := inside
        have offset : other.position i = page.position (other.position i - page.position 0) := by
          simp only [Page.position] at low ⊢
          omega
        have bound : other.position i - page.position 0 < pageSize := by
          simp only [Page.position] at high ⊢
          omega
        rw [held _ bound (by rw [← offset, ← sameFd]; exact known), ← offset, sameFd]
      · exact before i small known

end DiskManager

namespace BufferPool

open Function LawfulReplacer Fuel DiskManager

variable {R : Type}

/-- The frames and the disk of a pool agree with the bytes written so far. -/
structure Coherent (K : ℕ → ℕ → Prop) (content : Content) (pool : BufferPool R)
    (place : ℕ → Place) : Prop where
  tail : pool.disk.Tail K content
  frame : ∀ m page, place m = .resident page → ∀ i < pageSize, K page.fd (page.position i) →
    pool.memory m i = content page.fd (page.position i)
  clean : ∀ m page, place m = .resident page → (pool.pageTable.ptes m).dirty = false →
    pool.disk.Synced K content page
  away : ∀ page : Page, pool.pageTable.partitioner.getPartitionId page.fpageId = pool.poolId →
    (∀ m, place m ≠ .resident page) → pool.disk.Synced K content page

variable [Replacer R] [LawfulReplacer R] {pool pool' : BufferPool R} {place place' : ℕ → Place}
  {pins : List (Page × ℕ)} {page old : Page} {m : ℕ}

/-- The write-back of a victim loses nothing. -/
theorem Coherent.spilled (coherent : Coherent K content pool place) (inv : Inv pool place pins)
    (here : place m = .resident old) {disk : DiskManager} (spilled : Spilled pool old m disk) :
    disk.Synced K content old ∧
      ∀ other, pool.disk.Synced K content other → disk.Synced K content other := by
  unfold Spilled at spilled
  split_ifs at spilled with dirty
  · exact synced_of_write (inv.owned m old (Or.inl here)).valid coherent.tail
      (coherent.frame m old here) spilled
  · subst spilled
    exact ⟨coherent.clean m old here (by simpa using dirty), fun _ => id⟩

/-- Taking a frame from the free list or from a victim loses nothing. -/
theorem Coherent.source (coherent : Coherent K content pool place) (inv : Inv pool place pins)
    {disk : DiskManager}
    (source : place m = .free ∧ disk = pool.disk ∨ ∃ old, place m = .resident old ∧
      (pool.pageTable.ptes m).refCount = 0 ∧ Spilled pool old m disk) :
    (∀ other, place m = .resident other → disk.Synced K content other) ∧
      ∀ other, pool.disk.Synced K content other → disk.Synced K content other := by
  rcases source with ⟨free, rfl⟩ | ⟨old, here, _, spilled⟩
  · exact ⟨fun other there => (by rw [free] at there; cases there), fun _ => id⟩
  · obtain ⟨first, others⟩ := coherent.spilled inv here spilled
    refine ⟨fun other there => ?_, others⟩
    cases here.symm.trans there
    exact first

/-- A load keeps the bytes of every page, and fills the frame with those of its own. -/
theorem Coherent.load (coherent : Coherent K content pool place) (inv : Inv pool place pins)
    (owns : pool.Owns page) (empty : pool.pageTable.word? page = some .empty) {bytes : Bytes}
    (read : ∀ i < pageSize, K page.fd (page.position i) →
      bytes i = pool'.disk.byte page.fd (page.position i))
    (loaded : Loaded pool place page m bytes pool') :
    Coherent K content pool' (update place m (.resident page)) ∧
      ∀ other, pool.disk.Synced K content other → pool'.disk.Synced K content other := by
  obtain ⟨victim, others⟩ := coherent.source inv loaded.source
  have absent (k : ℕ) : place k ≠ .resident page := by
    intro there
    have := inv.word?_resident there
    rw [empty] at this
    cases this
  have synced : pool'.disk.Synced K content page :=
    others page (coherent.away page owns.partition absent)
  refine ⟨?_, others⟩
  exact {
    tail := loaded.handles.tail coherent.tail
    frame := by
      intro k other there i small known
      rw [loaded.memory]
      by_cases mine : k = m
      · subst mine
        rw [update_self] at there ⊢
        cases there
        rw [read i small known, synced i small known]
      · rw [update_of_ne mine] at there ⊢
        exact coherent.frame k other there i small known
    clean := by
      intro k other there clean
      by_cases mine : k = m
      · subst mine
        rw [update_self] at there
        cases there
        exact synced
      · rw [update_of_ne mine] at there
        rw [loaded.entries k mine] at clean
        exact others other (coherent.clean k other there clean)
    away := by
      intro other partition gone
      rw [loaded.files.partitioner, loaded.files.poolId] at partition
      by_cases evicted : place m = .resident other
      · exact victim other evicted
      · refine others other (coherent.away other partition fun k there => ?_)
        by_cases mine : k = m
        · subst mine
          exact evicted there
        · exact gone k (by rwa [update_of_ne mine]) }

omit [Replacer R] [LawfulReplacer R] in
/-- Another count and another place in the replacer change no byte. -/
theorem Coherent.recount (coherent : Coherent K content pool place) {pte : PTE} {r : R}
    (dirty : pte.dirty = false → (pool.pageTable.ptes m).dirty = false) :
    Coherent K content { pool with pageTable := pool.pageTable.setPte m pte, replacer := r } place := by
  refine ⟨coherent.tail, coherent.frame, ?_, coherent.away⟩
  intro k other there clean
  dsimp only [PageTable.setPte_ptes] at clean
  by_cases mine : k = m
  · subst mine
    rw [update_self] at clean
    exact coherent.clean k other there (dirty clean)
  · rw [update_of_ne mine] at clean
    exact coherent.clean k other there clean

/-- A fetch keeps the bytes of every page. -/
theorem Coherent.fetched (coherent : Coherent K content pool place) (inv : Inv pool place pins)
    (owns : pool.Owns page) (room : ∀ m, Room pins m)
    (fetched : Fetched pool place page m pool' place') :
    Coherent K content pool' place' ∧
      ∀ other, pool.disk.Synced K content other → pool'.disk.Synced K content other := by
  cases fetched with
  | hit here r same =>
    refine ⟨coherent.recount ?_, fun _ => id⟩
    have bound : (pool.pageTable.ptes m).refCount + 1 < 2 ^ 16 :=
      inv.counted m page (Or.inl here) ▸ room m
    rw [PTE.fetchAdd_one _ bound]
    exact id
  | load empty bytes pool' read loaded =>
    exact coherent.load inv owns empty (fun i small _ => read i small) loaded

/-- An unpin keeps the bytes of every page. -/
theorem Coherent.decRefCount (coherent : Coherent K content pool place) (inv : Inv pool place pins)
    (member : (page, m) ∈ pins) (isWrite : Bool) :
    Coherent K content (pool.decRefCount m isWrite) place := by
  refine coherent.recount ?_
  have positive : 0 < (pool.pageTable.ptes m).refCount := by
    rw [inv.counted m page (inv.pinned page m member)]
    exact List.countP_pos_iff.mpr ⟨(page, m), member, by simp⟩
  cases isWrite with
  | false =>
    rw [if_neg (by nofun), PTE.fetchSub_one _ positive]
    exact id
  | true =>
    rw [if_pos rfl, PTE.fetchSub_one ((pool.pageTable.ptes m).setDirty true) positive]
    exact fun clean => absurd clean (by simp [PTE.setDirty])

/-- Bytes written to a pinned page are the new bytes of the page once the pin is released as a
write. -/
theorem Coherent.overwrite (coherent : Coherent K content pool place) (inv : Inv pool place pins)
    (member : (page, m) ∈ pins) (here : place m = .resident page) {bytes : Bytes}
    (elsewhere : ∀ fd i, ¬ page.Contains fd i → (K' fd i → K fd i) ∧ content' fd i = content fd i)
    (written : ∀ i < pageSize, K' page.fd (page.position i) →
      bytes i = content' page.fd (page.position i))
    (tail : pool.disk.Tail K' content') :
    Coherent K' content' ((pool.withBytes m bytes).decRefCount m true) place := by
  have alone {k : ℕ} {other : Page} (there : place k = .resident other) (apart : k ≠ m) :
      other ≠ page := by
    rintro rfl
    have first := inv.word?_resident here
    have second := inv.word?_resident there
    rw [first] at second
    cases second
    exact apart rfl
  have synced {other : Page} (apart : other ≠ page) (before : pool.disk.Synced K content other) :
      pool.disk.Synced K' content' other := by
    intro i small known
    obtain ⟨fewer, same⟩ := elsewhere _ _ (Page.not_contains apart small)
    rw [before i small (fewer known), same]
  have positive : 0 < (pool.pageTable.ptes m).refCount := by
    rw [inv.counted m page (Or.inl here)]
    exact List.countP_pos_iff.mpr ⟨(page, m), member, by simp⟩
  refine ⟨tail, ?_, ?_, ?_⟩
  · intro k other there i small known
    by_cases mine : k = m
    · subst mine
      cases here.symm.trans there
      exact (congrFun (update_self ..) i).trans (written i small known)
    · have same : ((pool.withBytes m bytes).decRefCount m true).memory k = pool.memory k :=
        update_of_ne mine ..
      obtain ⟨fewer, kept⟩ := elsewhere _ _ (Page.not_contains (alone there mine) small)
      rw [same, coherent.frame k other there i small (fewer known), kept]
  · intro k other there clean
    by_cases mine : k = m
    · subst mine
      have word : ((pool.withBytes k bytes).decRefCount k true).pageTable.ptes k =
          ((pool.pageTable.ptes k).setDirty true).fetchSub 1 := update_self ..
      rw [word, PTE.fetchSub_one ((pool.pageTable.ptes k).setDirty true) positive] at clean
      exact absurd clean (by simp [PTE.setDirty])
    · have word : ((pool.withBytes m bytes).decRefCount m true).pageTable.ptes k =
          pool.pageTable.ptes k := update_of_ne mine ..
      rw [word] at clean
      exact synced (alone there mine) (coherent.clean k other there clean)
  · intro other partition gone
    refine synced ?_ (coherent.away other partition gone)
    rintro rfl
    exact gone m here

/-- Bytes written to a page of another pool. -/
theorem Coherent.elsewhere (coherent : Coherent K content pool place) (inv : Inv pool place pins)
    (foreign : pool.pageTable.partitioner.getPartitionId page.fpageId ≠ pool.poolId)
    (elsewhere : ∀ fd i, ¬ page.Contains fd i → (K' fd i → K fd i) ∧ content' fd i = content fd i)
    (tail : pool.disk.Tail K' content') : Coherent K' content' pool place := by
  have alone {other : Page}
      (partition : pool.pageTable.partitioner.getPartitionId other.fpageId = pool.poolId) :
      other ≠ page := by
    rintro rfl
    exact foreign partition
  have synced {other : Page}
      (partition : pool.pageTable.partitioner.getPartitionId other.fpageId = pool.poolId)
      (before : pool.disk.Synced K content other) : pool.disk.Synced K' content' other := by
    intro i small known
    obtain ⟨fewer, same⟩ := elsewhere _ _ (Page.not_contains (alone partition) small)
    rw [before i small (fewer known), same]
  refine ⟨tail, ?_, ?_, ?_⟩
  · intro k other there i small known
    obtain ⟨fewer, same⟩ :=
      elsewhere _ _ (Page.not_contains (alone (inv.owned k other (Or.inl there)).partition) small)
    rw [coherent.frame k other there i small (fewer known), same]
  · intro k other there clean
    exact synced (inv.owned k other (Or.inl there)).partition (coherent.clean k other there clean)
  · intro other partition gone
    exact synced partition (coherent.away other partition gone)

omit [Replacer R] [LawfulReplacer R] in
/-- Write-backs of other pools. -/
theorem Coherent.withDisk (coherent : Coherent K content pool place) {disk : DiskManager}
    (handles : SameHandles pool.disk disk)
    (others : ∀ page, pool.disk.Synced K content page → disk.Synced K content page) :
    Coherent K content { pool with disk := disk } place :=
  ⟨handles.tail coherent.tail, coherent.frame,
    fun m page here clean => others page (coherent.clean m page here clean),
    fun page partition gone => others page (coherent.away page partition gone)⟩

end BufferPool

end Gbp
