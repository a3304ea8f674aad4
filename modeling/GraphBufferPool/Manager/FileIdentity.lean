import GraphBufferPool.Manager.CloseFile
import GraphBufferPool.Manager.FlushKept

/-! # The page of a frame

A frame's entry names the page that was loaded into it, in bit-fields. While the handles of a program fit these, a
loaded page is found again in its frame, and whatever fetch evicts it writes it back where it came from and
clears the mapping of that page, also after other files have been closed.
-/

namespace Gbp

open Function LawfulReplacer DiskManager Fuel Machine

variable {R : Type} [Replacer R]

namespace BufferPool

/-- If a fetch of `other` evicts frame `m`, which holds `page`, it writes the bytes to the place of `page` if they are
dirty, and it clears the mapping of `page` and no other. -/
def EvictsHome (pool : BufferPool R) (other page : Page) (m : ℕ) : Prop :=
  ∀ locked begun chosen evicted, pool.beginPhase other = .ok (locked, .initing, begun) →
    begun.initingPhase = .ok (.evicting m, chosen) → chosen.evictingPhase m = .ok evicted →
      Spilled pool page m evicted.disk ∧ evicted.pageTable.word? page = some .empty ∧
        ∀ third, pool.Owns third → third ≠ page → third ≠ other →
          evicted.pageTable.word? third = pool.pageTable.word? third

variable [LawfulReplacer R] {pool : BufferPool R} {place : ℕ → Place} {pins : List (Page × ℕ)} {page other : Page}
  {m : ℕ}

/-- The eviction of a resident page. -/
theorem Inv.evictsHome (inv : Inv pool place pins) (able : Able pool place) (owns : pool.Owns other)
    (here : place m = .resident page) : EvictsHome pool other page m := by
  intro locked begun chosen evicted began picked done
  have empty : pool.pageTable.word? other = some .empty := by
    rcases inv.word?_cases owns with ⟨k, there⟩ | locks | empty
    · obtain ⟨r, _, _, locked', hit⟩ := inv.exists_pin there
      cases hit.symm.trans began
    · cases (beginPhase_busy ((inv.locked other owns).mpr locks)).symm.trans began
    · exact empty
  cases (beginPhase_empty empty).symm.trans began
  have ran : (pool.lockPage other).takeFrame = .ok (m, evicted) := by
    simp only [takeFrame, picked, ok_bind, done]
    rfl
  have taken := inv.takeFrame_sound able owns empty ran
  have word := inv.word?_resident here
  have apart : page ≠ other := by
    rintro rfl
    cases word.symm.trans empty
  have owned := inv.owned m page (Or.inl here)
  refine ⟨?_, ?_, fun third mine notPage notOther => ?_⟩
  · rcases taken.source with ⟨free, _⟩ | ⟨old, there, _, spilled⟩
    · cases here.symm.trans free
    · cases here.symm.trans there
      exact spilled
  · rw [taken.words page owned, if_neg apart, if_pos here]
  · rw [taken.words third mine, if_neg notOther, if_neg]
    rw [here]
    exact fun same => notPage (Place.resident.inj same).symm

end BufferPool

namespace BufferPoolManager

open BufferPool

/-- The manager, the pins of the program in each pool, and the page that was last loaded into each frame, unless
its file was closed since. -/
structure Loads (R : Type) where
  mgr : BufferPoolManager R
  pins : ℕ → List (Page × ℕ)
  loaded : ℕ → ℕ → Option Page

/-- The page lies in an open file. -/
structure InOpenFile (mgr : BufferPoolManager R) (page : Page) : Prop where
  valid : mgr.disk.validFD page.fd = true
  small : mgr.disk.getFileSizeFast page.fd ≤ maxFileSize
  inside : page.fpageId * pageSize < mgr.disk.getFileSizeFast page.fd

/-- What a program does with the files whose handles it `May` use: `SetBlock` is made of fetches and writes. -/
inductive LoadingStep (May : ℕ → Prop) : Loads R → Loads R → Prop
  | openFile {s : Loads R} {fd : ℕ} {mgr' : BufferPoolManager R} (file : OsFile)
      (ran : s.mgr.openFile file = .ok (fd, mgr')) : LoadingStep May s ⟨mgr', s.pins, s.loaded⟩
  | closeFile {s : Loads R} {fd : ℕ} {mgr' : BufferPoolManager R} (may : May fd)
      (valid : s.mgr.disk.validFD fd = true) (small : s.mgr.disk.getFileSizeFast fd ≤ maxFileSize)
      (ran : s.mgr.closeFile fd = .ok mgr') :
      LoadingStep May s ⟨mgr', s.pins, fun i m => (s.loaded i m).filter fun page => page.fd ≠ fd⟩
  | fetch {s : Loads R} {page : Page} {m : ℕ} {mgr' : BufferPoolManager R} (may : May page.fd)
      (inside : InOpenFile s.mgr page) (room : ∀ m, Room (s.pins (s.mgr.poolOf page)) m)
      (ran : Returns (fun fuel => s.mgr.fetchPageSync fuel page) (m, mgr')) :
      LoadingStep May s ⟨mgr', update s.pins (s.mgr.poolOf page) ((page, m) :: s.pins (s.mgr.poolOf page)),
        update s.loaded (s.mgr.poolOf page) (update (s.loaded (s.mgr.poolOf page)) m (some page))⟩
  | release {s : Loads R} {page : Page} {m : ℕ} (pin : (page, m) ∈ s.pins (s.mgr.poolOf page)) (isWrite : Bool) :
      LoadingStep May s ⟨s.mgr.decRefCount page m isWrite,
        update s.pins (s.mgr.poolOf page) ((s.pins (s.mgr.poolOf page)).erase (page, m)), s.loaded⟩
  | write {s : Loads R} {page : Page} {m : ℕ} (may : May page.fd) (inside : InOpenFile s.mgr page)
      (pin : (page, m) ∈ s.pins (s.mgr.poolOf page)) (bytes : Bytes) :
      LoadingStep May s ⟨(s.mgr.setFrame page m bytes).decRefCount page m true,
        update s.pins (s.mgr.poolOf page) ((s.pins (s.mgr.poolOf page)).erase (page, m)), s.loaded⟩

/-- A manager with its first file open. -/
inductive LoadingStart : Loads R → Prop
  | init (part : Partitioner) (poolSize : ℕ) (memory : ℕ → ℕ → Bytes) (file : OsFile) :
      LoadingStart ⟨.init part poolSize memory file, fun _ => [], fun _ _ => none⟩

/-- The states of a program that uses such files only. -/
abbrev LoadingRun (May : ℕ → Prop) (s : Loads R) : Prop := Reach LoadingStart (LoadingStep May) s

/-- Every loaded page is found in its frame, and is evicted to where it came from. -/
def Identifies (s : Loads R) : Prop :=
  ∀ i < s.mgr.partitioner.numPartitions, ∀ m page, s.loaded i m = some page →
    (∃ mgr', Returns (fun fuel => s.mgr.fetchPageSync fuel page) (m, mgr')) ∧
    ∀ other, InFile s.mgr other → s.mgr.poolOf other = i → EvictsHome (s.mgr.pool i) other page m

variable [LawfulReplacer R] {mgr mgr' : BufferPoolManager R} {content : Content} {place : ℕ → ℕ → Place}
  {pins : ℕ → List (Page × ℕ)} {loaded : ℕ → ℕ → Option Page} {page other : Page} {fd m : ℕ}

/-- What holds in every state of such a program: it claims nothing of the bytes. -/
structure Homes (mgr : BufferPoolManager R) (place : ℕ → ℕ → Place) (pins : ℕ → List (Page × ℕ))
    (loaded : ℕ → ℕ → Option Page) : Prop where
  sound : ∃ content, Sound (fun _ _ => False) content mgr place pins
  resident : ∀ i < mgr.partitioner.numPartitions, ∀ m page, loaded i m = some page → place i m = .resident page

theorem Homes.identifies (homes : Homes mgr place pins loaded) : Identifies ⟨mgr, pins, loaded⟩ := by
  obtain ⟨content, sound⟩ := homes.sound
  intro i inside m page there
  have here := homes.resident i inside m page there
  have inv := sound.inv i inside
  have same := sound.poolOf_eq inside here
  subst same
  refine ⟨?_, fun other inFile pool => ?_⟩
  · obtain ⟨r, _, pinned, _⟩ := inv.exists_pin here
    have returned : Returns (fun fuel => BufferPool.fetchPageSync fuel page (mgr.pool (mgr.poolOf page)))
        (m, (mgr.pool (mgr.poolOf page)).withPin m r) := by
      refine ⟨0, fun fuel _ => ?_⟩
      simp only [BufferPool.fetchPageSync, pinned, ok_bind]
      rfl
    exact ⟨_, mgr.fetchPageSync_pool page returned⟩
  · exact inv.evictsHome (inv.able (sound.settled _ inside)) (pool ▸ sound.owns inFile) here

/-- The flush of the pages of a file leaves the pages of the other files in their frames. -/
theorem Sound.flushFile_others {K : ℕ → ℕ → Prop} (sound : Sound K content mgr place pins) (range : InRange mgr fd 0 0)
    {result : Bool} (ran : mgr.flushFile fd false = .ok (result, mgr')) :
    ∃ place', Sound K content mgr' place' pins ∧ SameShape mgr mgr' ∧
      ∀ i m page, page.fd ≠ fd → place i m = .resident page → place' i m = .resident page := by
  have visit (ids : List ℕ) (below : ∀ k ∈ ids, k < mgr.fpageNum fd) {before : Bool} {mid : BufferPoolManager R}
      {midPlace : ℕ → ℕ → Place} (sound : Sound K content mid midPlace pins) (shape : SameShape mgr mid)
      (ran : ids.foldlM (fun state fpageId => state.2.flushPage fpageId fd false) (before, mid) = .ok (result, mgr')) :
      ∃ place', Sound K content mgr' place' pins ∧ SameShape mgr mgr' ∧
        ∀ i m page, page.fd ≠ fd → midPlace i m = .resident page → place' i m = .resident page := by
    induction ids generalizing before mid midPlace with
    | nil =>
      cases ran
      exact ⟨midPlace, sound, shape, fun _ _ _ _ => id⟩
    | cons k ids ih =>
      rw [List.foldlM_cons] at ran
      obtain ⟨⟨flushed, next⟩, visited, ran⟩ := bind_eq_ok.mp ran
      have inFile := shape.inFile (range.inFile (below k List.mem_cons_self))
      have inside := mid.poolOf_lt ⟨fd, k⟩
      obtain ⟨result', pool', poolPlace, done, after, others⟩ :=
        (sound.inv _ inside).flushPage_cases (sound.owns inFile) false
      obtain ⟨coherent, _, synced⟩ := after.coherent K content (sound.coherent _ inside)
      have sound' := sound.setPool inside after.files after.handles after.inv (after.settled (sound.settled _ inside))
        coherent fun j bound _ => (sound.coherent j bound).withDisk after.handles synced
      rw [update_eq_self] at sound'
      have moved : next = mid.setPool (mid.poolOf ⟨fd, k⟩) pool' := by
        have narrow : k % fpageIdRange = k := Nat.mod_eq_of_lt inFile.fpageId_lt
        rw [BufferPoolManager.flushPage, narrow] at visited
        simp only [done, ok_bind] at visited
        cases visited
        rfl
      subst moved
      obtain ⟨place', sound'', shape', kept⟩ := ih (fun k member => below k (List.mem_cons_of_mem _ member)) sound'
        (shape.trans (sameShape_setPool after.handles)) ran
      refine ⟨place', sound'', shape', fun i m page apart there => kept i m page apart ?_⟩
      rcases eq_or_ne i (mid.poolOf ⟨fd, k⟩) with rfl | other
      · rw [update_self]
        exact others m page (fun same => apart (congrArg Page.fd same)) there
      · rwa [update_of_ne other]
  rw [flushFile, if_pos range.valid] at ran
  exact visit _ (fun k => List.mem_range.mp) sound (.refl _) ran

/-- `CloseFile` leaves the pages of the other files in their frames. -/
theorem Homes.closeFile (homes : Homes mgr place pins loaded)
    (range : InRange mgr fd 0 0) (ran : mgr.closeFile fd = .ok mgr') :
    ∃ place', Homes mgr' place' pins fun i m => (loaded i m).filter fun page => page.fd ≠ fd := by
  obtain ⟨content, sound⟩ := homes.sound
  obtain ⟨⟨result, mid⟩, flushed, ran⟩ := bind_eq_ok.mp ran
  obtain ⟨_, _, ran⟩ := bind_eq_ok.mp ran
  obtain ⟨place', sound', shape, others⟩ := sound.flushFile_others range flushed
  obtain ⟨_, returned, partitioner, poolSize, disk, pools⟩ := exists_deregister mid fd
  cases returned.symm.trans ran
  refine ⟨_, ⟨content, (sound'.deregister partitioner poolSize disk pools).mono fun _ _ => False.elim⟩, ?_⟩
  rw [partitioner, shape.partitioner]
  intro i inside m page there
  obtain ⟨was, apart⟩ := Option.filter_eq_some_iff.mp there
  have other : page.fd ≠ fd := of_decide_eq_true apart
  apply Place.closed_eq_resident.mpr
  exact ⟨others i m page other (homes.resident i inside m page was), other⟩

/-- A fetch leaves the other pages in their frames, but the one it evicts. -/
theorem Homes.fetch (homes : Homes mgr place pins loaded) (inFile : InFile mgr page)
    (room : ∀ m, Room (pins (mgr.poolOf page)) m) (ran : Returns (fun fuel => mgr.fetchPageSync fuel page) (m, mgr')) :
    ∃ place', Homes mgr' place' (update pins (mgr.poolOf page) ((page, m) :: pins (mgr.poolOf page)))
      (update loaded (mgr.poolOf page) (update (loaded (mgr.poolOf page)) m (some page))) := by
  obtain ⟨content, sound⟩ := homes.sound
  obtain ⟨pool', returned, rfl⟩ := fetchPageSync_returns ran
  obtain ⟨place', fetched, _, sound'⟩ := sound.fetch_at inFile room returned
  refine ⟨_, ⟨content, sound'⟩, fun i inside k third there => ?_⟩
  rcases eq_or_ne i (mgr.poolOf page) with rfl | elsewhere
  · rw [update_self] at there ⊢
    rcases eq_or_ne k m with rfl | apart
    · rw [update_self] at there
      cases there
      exact fetched.resident
    · rw [update_of_ne apart] at there
      have was := homes.resident _ inside k third there
      cases fetched with
      | hit => exact was
      | load => rwa [update_of_ne apart]
  · rw [update_of_ne elsewhere] at there ⊢
    exact homes.resident i inside k third there

theorem LoadingStart.homes {s : Loads R} (start : LoadingStart s) : ∃ place, Homes s.mgr place s.pins s.loaded := by
  cases start with
  | init part poolSize memory file =>
    have sound : Sound (fun _ _ => False) _ (.init part poolSize memory file : BufferPoolManager R) _ _ :=
      (opens_init part poolSize memory file).sound (blank_sound part poolSize memory)
    exact ⟨_, ⟨_, sound⟩, fun _ _ _ _ there => by cases there⟩

/-- A step keeps the loaded pages in their frames. -/
theorem LoadingStep.homes {s s' : Loads R} (step : LoadingStep (· < 2 ^ 13) s s')
    (homes : Homes s.mgr place s.pins s.loaded) : ∃ place', Homes s'.mgr place' s'.pins s'.loaded := by
  obtain ⟨content, sound⟩ := homes.sound
  cases step with
  | openFile file ran =>
    obtain ⟨_, returned, opens⟩ := exists_openFile _ file
    cases returned.symm.trans ran
    refine ⟨place, ⟨_, opens.sound sound⟩, ?_⟩
    rw [opens.partitioner]
    exact homes.resident
  | closeFile may valid small ran => exact homes.closeFile ⟨may, valid, small, Nat.zero_le _⟩ ran
  | fetch may inside room ran => exact homes.fetch ⟨may, inside.valid, inside.small, inside.inside⟩ room ran
  | release pin isWrite => exact ⟨place, ⟨content, sound.decRefCount pin isWrite⟩, homes.resident⟩
  | write may inside pin bytes =>
    have here := sound.resident_of_pin ⟨may, inside.valid, inside.small, inside.inside⟩ pin
    refine ⟨place, ⟨content, ?_⟩, homes.resident⟩
    exact sound.write pin here (fun _ _ _ => ⟨id, rfl⟩) (fun _ _ => False.elim) fun _ _ => False.elim

theorem LoadingRun.homes {s : Loads R} (run : LoadingRun (· < 2 ^ 13) s) :
    ∃ place, Homes s.mgr place s.pins s.loaded := by
  refine run.invariant (fun _ start => start.homes) fun s s' homes step => ?_
  obtain ⟨place, homes⟩ := homes
  exact step.homes homes

/-- In every run that uses handles the entries can name, a loaded page is found again in its frame until it is evicted
or its file closed, and its eviction writes to its place and clears its mapping. -/
theorem loaded_page_identified {s : Loads R} (run : LoadingRun (· < 2 ^ 13) s) : Identifies s := by
  obtain ⟨place, homes⟩ := run.homes
  exact homes.identifies

/-- A page that was fetched once is found in the same frame again. -/
theorem loaded_page_identified_onePage : ∃ mgr mgr' : BufferPoolManager SieveReplacer_v3,
    Returns (fun fuel => twoZeroPages.mgr.fetchPageSync fuel ⟨0, 0⟩) (0, mgr) ∧
      Returns (fun fuel => mgr.fetchPageSync fuel ⟨0, 0⟩) (0, mgr') := by
  obtain ⟨mgr, fetched, shape, _⟩ := exists_fetched
  have inside : InOpenFile twoZeroPages.mgr ⟨0, 0⟩ := ⟨rfl, by decide, by decide⟩
  have start : LoadingRun (· < 2 ^ 13) ⟨twoZeroPages.mgr, twoZeroPages.pins, fun _ _ => none⟩ := .init (.init _ _ _ _)
  have run := start.step (.fetch (by decide) inside (by simp [Room, twoZeroPages]) fetched)
  have below : twoZeroPages.mgr.poolOf ⟨0, 0⟩ < mgr.partitioner.numPartitions :=
    shape.partitioner.symm ▸ twoZeroPages.mgr.poolOf_lt ⟨0, 0⟩
  obtain ⟨⟨mgr', again⟩, _⟩ := loaded_page_identified run _ below 0 ⟨0, 0⟩ (by simp)
  exact ⟨mgr, mgr', fetched, again⟩

end BufferPoolManager

end Gbp
