import GraphBufferPool.Lib.Outcome
import GraphBufferPool.Manager.Partitioning
import GraphBufferPool.Manager.Slicing
import GraphBufferPool.MmapArray.Touch

/-! # Blocks that a program keeps

A program may keep the block that `GetBlockSync` returned, go on calling the manager, and store into its
blocks. A block has a pin on each page of its range, so the frames stay with these pages whatever else is
fetched, stored or evicted: its bytes are those of the file until it is freed, and `free` gives back
these pins and no other.
-/

namespace Gbp

namespace BufferBlock

/-- `free` of a block with all its pages, from the last to the first. -/
theorem free_pages {size data : ℕ} (positive : 0 < size) (pages : List BlockPage) :
    free ⟨size, data, pages.map some⟩ =
      .ok (pages.reverse.map BlockPage.release, emptied ⟨size, data, pages.map some⟩) := by
  have released : releases ⟨size, data, pages.map some⟩ = .ok (pages.reverse.map BlockPage.release) := by
    induction pages using List.reverseRecOn with
    | nil =>
      rw [releases, if_pos (Nat.pos_iff_ne_zero.mp positive)]
      rfl
    | append_singleton pages page ih =>
      rw [releases, if_pos (Nat.pos_iff_ne_zero.mp positive)] at ih ⊢
      dsimp only at ih ⊢
      rw [List.map_append, List.reverse_append, List.reverse_append, List.map_singleton, List.reverse_singleton,
        List.reverse_singleton, List.singleton_append, List.singleton_append, List.mapM_cons, ih]
      rfl
  rw [free, released]
  rfl

/-- The page that is inserted next into a block. -/
theorem insertPage_next {size data n : ℕ} {pages : List BlockPage} (short : pages.length < n) (page : BlockPage) :
    insertPage ⟨size, data, pages.map some ++ List.replicate (n - pages.length) none⟩ pages.length page =
      .ok ⟨size, data, (pages ++ [page]).map some ++ List.replicate (n - (pages.length + 1)) none⟩ := by
  obtain ⟨left, more⟩ : ∃ left, n - pages.length = left + 1 := ⟨n - pages.length - 1, by omega⟩
  have rest : n - (pages.length + 1) = left := by omega
  have count : pageNum ⟨size, data, pages.map some ++ List.replicate (n - pages.length) none⟩ = n := by
    rw [pageNum, List.length_append, List.length_map, List.length_replicate]
    omega
  rw [insertPage, count, rest]
  split_ifs with one
  · have first : pages = [] := List.length_eq_zero_iff.mp (by omega)
    obtain rfl : left = 0 := by omega
    rw [first]
    rfl
  · have place : (pages.map some).length ≤ pages.length := (List.length_map _).le
    rw [more, List.replicate_succ, List.set_append_right _ _ place, List.length_map, Nat.sub_self, List.set_cons_zero,
      List.map_append, List.append_assoc]
    rfl

/-- The address of a byte, from the pages: the first one is entered where the block starts. -/
theorem locate_eq {pages : List ℕ} {i data : ℕ} (aligned : ∀ data ∈ pages.tail, data % pageSize = 0)
    (here : pages[(pages.headD 0 % pageSize + i) / pageSize]? = some data) :
    locate pages i = data / pageSize * pageSize + (pages.headD 0 % pageSize + i) % pageSize := by
  induction pages generalizing i with
  | nil => cases here
  | cons first rest ih =>
    rw [List.headD_cons] at here ⊢
    have entry : first % pageSize < pageSize := Nat.mod_lt _ (by decide)
    have split := Nat.div_add_mod' first pageSize
    rw [locate]
    split_ifs with inside
    · have small : first % pageSize + i < pageSize := by
        rw [locInpage] at inside
        omega
      rw [Nat.div_eq_of_lt small, List.getElem?_cons_zero] at here
      cases here
      rw [Nat.mod_eq_of_lt small]
      omega
    · obtain ⟨later, sum⟩ : ∃ later, first % pageSize + i = later + pageSize :=
        ⟨first % pageSize + i - pageSize, by rw [locInpage] at inside; omega⟩
      have past : i - locInpage first = later := by
        rw [locInpage]
        omega
      rw [sum, Nat.add_div_right _ (by decide), List.getElem?_cons_succ] at here
      rw [sum, Nat.add_mod_right, past]
      cases rest with
      | nil => cases here
      | cons next rest =>
        have start : next % pageSize = 0 := aligned next List.mem_cons_self
        have found := @ih later (fun data member => aligned data (List.mem_cons_of_mem _ member))
        rw [List.headD_cons, start, Nat.zero_add] at found
        exact found here

/-- Where a byte of a block lies, however many pages the block has. -/
theorem address_eq_locate {size data i entry : ℕ} {pages : List BlockPage}
    (here : (pageDatas ⟨size, data, pages.map some⟩)[
      ((pageDatas ⟨size, data, pages.map some⟩).headD 0 % pageSize + i) / pageSize]? = some entry) :
    address ⟨size, data, pages.map some⟩ i = locate (pageDatas ⟨size, data, pages.map some⟩) i := by
  rw [address]
  split_ifs with few
  · rw [pageNum, List.length_map] at few
    rcases pages with _ | ⟨page, _ | ⟨next, rest⟩⟩
    · cases here
    · have found : ([page.data] : List ℕ)[(page.data % pageSize + i) / pageSize]? = some entry := here
      have inside : page.data % pageSize + i < pageSize := by
        obtain ⟨zero, _⟩ := List.getElem?_eq_some_iff.mp found
        exact (Nat.div_eq_zero_iff_lt (by decide)).mp (Nat.lt_one_iff.mp zero)
      exact (if_pos (Nat.lt_sub_of_add_lt (Nat.add_comm i _ ▸ inside))).symm
    · rw [List.length_cons, List.length_cons] at few
      omega
  · rfl

end BufferBlock

namespace BufferPoolManager

open Function LawfulReplacer BufferPool DiskManager Fuel Machine

section model

variable {R : Type}

/-- `SetDirty(true)`. -/
def setDirty (mgr : BufferPoolManager R) (pte : EntryId) : BufferPoolManager R :=
  let pool := mgr.pool pte.pool
  mgr.setPool pte.pool
    { pool with pageTable := pool.pageTable.setPte pte.frame ((pool.pageTable.ptes pte.frame).setDirty true) }

/-- The `k`-th page of a range of a file. -/
def pageAt (fd fileOffset k : ℕ) : Page := ⟨fd, fileOffset / pageSize + k⟩

/-- Where the range starts in its `k`-th page. -/
def entryAt (fileOffset k : ℕ) : ℕ := if k = 0 then fileOffset % pageSize else 0

/-- The pages of a range in these frames, as `InsertPage` gets them. -/
def framePages (mgr : BufferPoolManager R) (fd fileOffset : ℕ) (frames : List ℕ) : List BlockPage :=
  frames.mapIdx fun k m => mgr.blockPage (pageAt fd fileOffset k) m (entryAt fileOffset k)

/-- The pages of the range are pages of the file, which may end before the range does. -/
def PagesIn (mgr : BufferPoolManager R) (fd fileOffset blockSize : ℕ) : Prop :=
  ∀ k < pageCount fileOffset blockSize, InFile mgr (pageAt fd fileOffset k)

/-- The block of a range whose pages are in these frames. -/
def blockIn (mgr : BufferPoolManager R) (fd fileOffset blockSize : ℕ) (frames : List ℕ) : BufferBlock :=
  ⟨blockSize, 0, (mgr.framePages fd fileOffset frames).map some⟩

/-- The pins of such a block. -/
def blockPins (fd fileOffset : ℕ) (frames : List ℕ) : List (Page × ℕ) :=
  frames.mapIdx fun k m => (pageAt fd fileOffset k, m)

/-- The pins after some more have been taken. -/
def hold (mgr : BufferPoolManager R) (pins : ℕ → List (Page × ℕ)) (taken : List (Page × ℕ)) : ℕ → List (Page × ℕ) :=
  taken.foldl (fun pins pin => update pins (mgr.poolOf pin.1) (pin :: pins (mgr.poolOf pin.1))) pins

/-- The pins after some have been given back, the last one first. -/
def letGo (mgr : BufferPoolManager R) (pins : ℕ → List (Page × ℕ)) (taken : List (Page × ℕ)) : ℕ → List (Page × ℕ) :=
  taken.foldr (fun pin pins => update pins (mgr.poolOf pin.1) ((pins (mgr.poolOf pin.1)).erase pin)) pins

/-- The pins have not been given back. -/
def Retains (mgr : BufferPoolManager R) (pins : ℕ → List (Page × ℕ)) (taken : List (Page × ℕ)) : Prop :=
  ∀ pin ∈ taken, pin ∈ pins (mgr.poolOf pin.1)

/-- The pools of the pages have frames to spare for their shares of them. -/
def FramesFor (mgr : BufferPoolManager R) (pins : ℕ → List (Page × ℕ)) (pages : List Page) : Prop :=
  ∀ page ∈ pages,
    (pins (mgr.poolOf page)).length + pages.countP (mgr.poolOf · = mgr.poolOf page) ≤ mgr.poolSize

/-- No frame has so many pins that two more fill the count of its entry. -/
def CountsBelow (mgr : BufferPoolManager R) (pins : ℕ → List (Page × ℕ)) : Prop :=
  ∀ i < mgr.partitioner.numPartitions, ∀ m, (pins i).countP (·.2 = m) + 2 < 2 ^ 16

/-- A page can be pinned: its pool has a frame to spare, or it is in one already. -/
def Fetchable (mgr : BufferPoolManager R) (pins : ℕ → List (Page × ℕ)) (page : Page) : Prop :=
  (pins (mgr.poolOf page)).length < mgr.poolSize ∨
    ∃ m, (mgr.pools (mgr.poolOf page)).pageTable.word? page = some (.frame m)

end model

variable {R : Type} {mgr mgr' : BufferPoolManager R} {pins : ℕ → List (Page × ℕ)} {taken : List (Page × ℕ)}
  {fd fileOffset blockSize k m : ℕ} {frames : List ℕ} {content : Content} {page : Page}

section pins

theorem hold_concat (mgr : BufferPoolManager R) (pins : ℕ → List (Page × ℕ)) (taken : List (Page × ℕ))
    (pin : Page × ℕ) : mgr.hold pins (taken ++ [pin]) = update (mgr.hold pins taken) (mgr.poolOf pin.1)
      (pin :: mgr.hold pins taken (mgr.poolOf pin.1)) := by
  rw [hold, List.foldl_append]
  rfl

/-- The pins of a pool are those it had and its share of the new ones. -/
theorem hold_perm (mgr : BufferPoolManager R) (pins : ℕ → List (Page × ℕ)) (taken : List (Page × ℕ)) (i : ℕ) :
    (mgr.hold pins taken i).Perm (taken.filter (mgr.poolOf ·.1 = i) ++ pins i) := by
  induction taken using List.reverseRecOn with
  | nil => exact .refl _
  | append_singleton taken pin ih =>
    rw [hold_concat, List.filter_append, List.filter_singleton]
    rcases eq_or_ne (mgr.poolOf pin.1) i with rfl | apart
    · rw [update_self]
      simp only [decide_true, cond_true]
      exact (ih.cons pin).trans (List.perm_middle.symm.trans (by rw [List.append_assoc]; rfl))
    · rw [update_of_ne apart.symm]
      simpa [apart] using ih

theorem length_hold (i : ℕ) :
    (mgr.hold pins taken i).length = taken.countP (mgr.poolOf ·.1 = i) + (pins i).length := by
  rw [(hold_perm mgr pins taken i).length_eq, List.length_append, List.countP_eq_length_filter]

theorem retains_hold (mgr : BufferPoolManager R) (pins : ℕ → List (Page × ℕ)) (taken : List (Page × ℕ)) :
    mgr.Retains (mgr.hold pins taken) taken := by
  intro pin member
  refine (hold_perm mgr pins taken _).mem_iff.mpr (List.mem_append_left _ (List.mem_filter.mpr ⟨member, ?_⟩))
  exact decide_eq_true rfl

/-- Other pins stay when some are given back. -/
theorem mem_letGo {pin : Page × ℕ} (other : pin ∉ taken) {i : ℕ} (member : pin ∈ pins i) :
    pin ∈ mgr.letGo pins taken i := by
  induction taken with
  | nil => exact member
  | cons first rest ih =>
    have kept := ih fun here => other (List.mem_cons_of_mem _ here)
    have apart : pin ≠ first := fun same => other (same ▸ List.mem_cons_self)
    change pin ∈ update (mgr.letGo pins rest) (mgr.poolOf first.1)
      ((mgr.letGo pins rest (mgr.poolOf first.1)).erase first) i
    rcases eq_or_ne i (mgr.poolOf first.1) with rfl | pool
    · rw [update_self]
      exact (List.mem_erase_of_ne apart).mpr kept
    · rwa [update_of_ne pool]

/-- The pages of a block are different. -/
theorem blockPins_nodup (fd fileOffset : ℕ) (frames : List ℕ) : (blockPins fd fileOffset frames).Nodup := by
  rw [List.nodup_iff_getElem?_ne_getElem?]
  intro i j before inside same
  have left : i < (blockPins fd fileOffset frames).length := before.trans inside
  rw [List.getElem?_eq_getElem left, List.getElem?_eq_getElem inside, Option.some_inj] at same
  simp only [blockPins, List.getElem_mapIdx, Prod.mk.injEq, pageAt, Page.mk.injEq] at same
  omega

end pins

section frames

theorem length_framePages : (mgr.framePages fd fileOffset frames).length = frames.length := List.length_mapIdx

theorem framePages_concat : mgr.framePages fd fileOffset (frames ++ [m]) =
    mgr.framePages fd fileOffset frames ++
      [mgr.blockPage (pageAt fd fileOffset frames.length) m (entryAt fileOffset frames.length)] := List.mapIdx_concat

theorem blockPins_concat : blockPins fd fileOffset (frames ++ [m]) =
    blockPins fd fileOffset frames ++ [(pageAt fd fileOffset frames.length, m)] := List.mapIdx_concat

theorem mem_blockPins (here : frames[k]? = some m) : (pageAt fd fileOffset k, m) ∈ blockPins fd fileOffset frames := by
  apply List.mem_iff_getElem?.mpr
  refine ⟨k, ?_⟩
  rw [blockPins, List.getElem?_mapIdx, here]
  rfl

/-- The pages of the pins are those of the range. -/
theorem blockPins_pages (fd fileOffset : ℕ) (frames : List ℕ) :
    (blockPins fd fileOffset frames).map Prod.fst = (List.range frames.length).map (pageAt fd fileOffset) := by
  apply List.ext_getElem?
  intro k
  rw [blockPins, List.getElem?_map, List.getElem?_mapIdx, List.getElem?_map, Option.map_map]
  rcases Nat.lt_or_ge k frames.length with inside | past
  · rw [List.getElem?_eq_getElem inside, List.getElem?_range inside]
    rfl
  · rw [List.getElem?_eq_none past, List.getElem?_eq_none (by rwa [List.length_range])]
    rfl

/-- A pool's share of the pins is its share of the pages. -/
theorem countP_blockPins (mgr : BufferPoolManager R) (fd fileOffset : ℕ) (frames : List ℕ) (i : ℕ) :
    (blockPins fd fileOffset frames).countP (mgr.poolOf ·.1 = i) =
      ((List.range frames.length).map (pageAt fd fileOffset)).countP (mgr.poolOf · = i) := by
  induction frames using List.reverseRecOn with
  | nil => rfl
  | append_singleton frames m ih =>
    rw [blockPins_concat, List.length_append, List.length_singleton, List.range_succ, List.map_append,
      List.countP_append, List.countP_append, ih]
    rfl

/-- A block depends on the sizes of the pools only. -/
theorem framePages_congr (partitioner : mgr'.partitioner = mgr.partitioner) (poolSize : mgr'.poolSize = mgr.poolSize) :
    mgr'.framePages fd fileOffset frames = mgr.framePages fd fileOffset frames := by
  simp only [framePages, blockPage, frameAddress, BufferPoolManager.poolOf, partitioner, poolSize]

theorem blockIn_congr (partitioner : mgr'.partitioner = mgr.partitioner) (poolSize : mgr'.poolSize = mgr.poolSize) :
    mgr'.blockIn fd fileOffset blockSize frames = mgr.blockIn fd fileOffset blockSize frames := by
  rw [blockIn, framePages_congr partitioner poolSize, blockIn]

theorem pageDatas_blockIn : (mgr.blockIn fd fileOffset blockSize frames).pageDatas =
    frames.mapIdx fun k m => mgr.frameAddress (mgr.poolOf (pageAt fd fileOffset k)) m + entryAt fileOffset k := by
  have slots :
      ((mgr.framePages fd fileOffset frames).map some).reduceOption = mgr.framePages fd fileOffset frames := by
    rw [List.reduceOption, List.filterMap_map]
    exact List.filterMap_some
  rw [BufferBlock.pageDatas, blockIn, slots, framePages]
  symm
  apply List.mapIdx_eq_iff.mpr
  intro k
  rw [List.getElem?_map, List.getElem?_mapIdx, Option.map_map]
  rfl

theorem entryAt_lt (fileOffset k : ℕ) : entryAt fileOffset k < pageSize := by
  unfold entryAt
  split_ifs
  · exact Nat.mod_lt _ (by decide)
  · decide

theorem frameAddress_add_mod {i r : ℕ} (small : r < pageSize) : (mgr.frameAddress i m + r) % pageSize = r := by
  rw [frameAddress, Nat.mul_add_mod_self_right, Nat.mod_eq_of_lt small]

theorem frameAddress_add_div {i r : ℕ} (small : r < pageSize) :
    (mgr.frameAddress i m + r) / pageSize * pageSize = mgr.frameAddress i m := by
  rw [frameAddress, Nat.add_comm, Nat.add_mul_div_right _ _ (by decide), Nat.div_eq_of_lt small, Nat.zero_add]

/-- The block starts in its first page where the range does. -/
theorem headD_blockIn (some : frames ≠ []) :
    (mgr.blockIn fd fileOffset blockSize frames).pageDatas.headD 0 % pageSize = fileOffset % pageSize := by
  obtain ⟨first, rest, rfl⟩ := List.exists_cons_of_ne_nil some
  rw [pageDatas_blockIn, List.mapIdx_cons, List.headD_cons, frameAddress_add_mod (entryAt_lt ..)]
  rfl

/-- The other pages are entered from their starts. -/
theorem aligned_blockIn :
    ∀ data ∈ (mgr.blockIn fd fileOffset blockSize frames).pageDatas.tail, data % pageSize = 0 := by
  rw [pageDatas_blockIn]
  cases frames with
  | nil => simp
  | cons first rest =>
    rw [List.mapIdx_cons, List.tail_cons]
    intro data member
    obtain ⟨j, _, rfl⟩ := List.mem_mapIdx.mp member
    exact frameAddress_add_mod (entryAt_lt fileOffset (j + 1))

/-- The bytes of its pages from the start of the range. -/
theorem capacity_blockIn (some : frames ≠ []) :
    BufferBlock.capacity (mgr.blockIn fd fileOffset blockSize frames).pageDatas + fileOffset % pageSize =
      frames.length * pageSize := by
  have entry : fileOffset % pageSize < pageSize := Nat.mod_lt _ (by decide)
  have head := @headD_blockIn _ mgr fd fileOffset blockSize frames some
  have aligned := @aligned_blockIn _ mgr fd fileOffset blockSize frames
  have length : (mgr.blockIn fd fileOffset blockSize frames).pageDatas.length = frames.length := by
    rw [pageDatas_blockIn, List.length_mapIdx]
  generalize (mgr.blockIn fd fileOffset blockSize frames).pageDatas = pages at head aligned length
  cases pages with
  | nil => exact absurd (List.length_eq_zero_iff.mp length.symm) some
  | cons first rest =>
    rw [List.headD_cons] at head
    rw [List.tail_cons] at aligned
    rw [BufferBlock.capacity_cons, BufferBlock.capacity_of_aligned aligned, locInpage, head, ← length,
      List.length_cons, Nat.succ_mul]
    omega

/-- A block with all the pages of its range is one that `Copy`, `Compare` and `operator==` expect. -/
theorem blockIn_whole (positive : 0 < blockSize) (pages : frames.length = pageCount fileOffset blockSize) :
    (mgr.blockIn fd fileOffset blockSize frames).Whole := by
  have entry : fileOffset % pageSize < pageSize := Nat.mod_lt _ (by decide)
  have split := Nat.div_add_mod' fileOffset pageSize
  rw [pageCount, if_neg (Nat.pos_iff_ne_zero.mp positive)] at pages
  obtain ⟨init, last, rfl⟩ : ∃ init last, frames = init ++ [last] :=
    ⟨_, _, (List.dropLast_append_getLast (List.ne_nil_of_length_pos (pages ▸ Nat.succ_pos _))).symm⟩
  have all := @capacity_blockIn _ mgr fd fileOffset blockSize (init ++ [last]) (by simp)
  rw [List.length_append, List.length_singleton] at pages all
  refine ⟨by simp [blockIn], aligned_blockIn, fun _ => ?_, fun many => ?_⟩
  · change blockSize ≤ _
    unfold pageSize at *
    omega
  · have few : init ≠ [] := by
      rintro rfl
      simp [blockIn, framePages, BufferBlock.pageNum] at many
    have front := @capacity_blockIn _ mgr fd fileOffset blockSize init few
    rw [pageDatas_blockIn] at front
    rw [pageDatas_blockIn, List.mapIdx_concat, List.dropLast_concat]
    change _ < blockSize
    unfold pageSize at *
    omega

/-- The bytes of a block lie where its frames hold those of the range. -/
theorem address_blockIn {i : ℕ} (pages : frames.length = pageCount fileOffset blockSize) (inside : i < blockSize) :
    ∃ k m r, frames[k]? = some m ∧ r < pageSize ∧ (fileOffset / pageSize + k) * pageSize + r = fileOffset + i ∧
      (mgr.blockIn fd fileOffset blockSize frames).address i =
        mgr.frameAddress (mgr.poolOf (pageAt fd fileOffset k)) m + r := by
  have positive : 0 < blockSize := Nat.zero_lt_of_lt inside
  have entry : fileOffset % pageSize < pageSize := Nat.mod_lt _ (by decide)
  have split := Nat.div_add_mod' fileOffset pageSize
  set k := (fileOffset % pageSize + i) / pageSize with index
  have within : k < frames.length := by
    rw [pages, pageCount, if_neg (Nat.pos_iff_ne_zero.mp positive), index]
    unfold pageSize at *
    omega
  have place := Nat.div_add_mod' (fileOffset % pageSize + i) pageSize
  rw [← index] at place
  refine ⟨k, frames[k], (fileOffset % pageSize + i) % pageSize, List.getElem?_eq_getElem within,
    Nat.mod_lt _ (by decide), by rw [Nat.add_mul, Nat.add_assoc, place, ← Nat.add_assoc, split], ?_⟩
  have datas := @pageDatas_blockIn _ mgr fd fileOffset blockSize frames
  have head : (mgr.blockIn fd fileOffset blockSize frames).pageDatas.headD 0 % pageSize = fileOffset % pageSize :=
    headD_blockIn (List.ne_nil_of_length_pos (Nat.zero_lt_of_lt within))
  have here : (mgr.blockIn fd fileOffset blockSize frames).pageDatas[(fileOffset % pageSize + i) / pageSize]? =
      some (mgr.frameAddress (mgr.poolOf (pageAt fd fileOffset k)) frames[k] + entryAt fileOffset k) := by
    rw [datas, ← index, List.getElem?_mapIdx, List.getElem?_eq_getElem within]
    rfl
  rw [← head] at here
  have located := BufferBlock.locate_eq aligned_blockIn here
  rw [head, frameAddress_add_div (entryAt_lt ..)] at located
  rw [← located]
  exact BufferBlock.address_eq_locate here

end frames

section steps

variable [Replacer R]

/-- What a program that keeps blocks does: it may also store into a page while it keeps the pin, as
`UpdateContent` does. -/
inductive LiveStep : Session R → Session R → Prop
  | session {s s' : Session R} (step : SessionStep s s') : LiveStep s s'
  | update {s : Session R} {page : Page} {m : ℕ} (inFile : InFile s.mgr page)
      (pin : (page, m) ∈ s.pins (s.mgr.poolOf page)) (bytes : Bytes)
      (past : ∀ i < pageSize, s.mgr.disk.getFileSizeFast page.fd ≤ page.position i →
        bytes i = s.mgr.frame page m i) :
      LiveStep s ⟨(s.mgr.setFrame page m bytes).setDirty ⟨s.mgr.poolOf page, m⟩, stored s.content page bytes, s.pins⟩

/-- The states of such programs. -/
abbrev LiveRun (s : Session R) : Prop := Reach SessionStart LiveStep s

theorem SessionRun.live {s : Session R} (run : SessionRun s) : LiveRun s :=
  run.mono (fun _ => id) fun _ _ => .session

end steps

variable [Replacer R] [LawfulReplacer R]

/-- A store to a pinned frame that is marked dirty changes the bytes of its page. -/
theorem Sound.update {place : ℕ → ℕ → Place} {content' : Content} {K K' : ℕ → ℕ → Prop}
    (sound : Sound K content mgr place pins) (member : (page, m) ∈ pins (mgr.poolOf page))
    (here : place (mgr.poolOf page) m = .resident page) {bytes : Bytes}
    (elsewhere : ∀ fd i, ¬ page.Contains fd i → (K' fd i → K fd i) ∧ content' fd i = content fd i)
    (written : ∀ i < pageSize, K' page.fd (page.position i) → bytes i = content' page.fd (page.position i))
    (tail : mgr.disk.Tail K' content') :
    Sound K' content' ((mgr.setFrame page m bytes).setDirty ⟨mgr.poolOf page, m⟩) place pins := by
  have inside := mgr.poolOf_lt page
  have inv := sound.inv _ inside
  set pool := mgr.pool (mgr.poolOf page) with pool_eq
  set dirtied : BufferPool R :=
    { pool.withBytes m bytes with pageTable := pool.pageTable.setPte m ((pool.pageTable.ptes m).setDirty true) }
    with dirtied_eq
  have same : (mgr.setFrame page m bytes).setDirty ⟨mgr.poolOf page, m⟩ = mgr.setPool (mgr.poolOf page) dirtied := by
    simp only [setDirty, BufferPoolManager.setFrame, BufferPoolManager.setPool, BufferPoolManager.pool,
      BufferPoolManager.poolOf, update_self, update_idem]
    rfl
  have marked : BufferPool.Inv dirtied (place (mgr.poolOf page)) (pins (mgr.poolOf page)) :=
    (inv.withBytes m bytes).recount _ (Or.inl here) rfl rfl rfl (inv.counted m page (Or.inl here)) (fun _ _ => rfl)
      inv.pinned rfl (fun _ => Iff.rfl) inv.calm
  have coherent : Coherent K' content' dirtied (place (mgr.poolOf page)) := by
    have released := (sound.coherent _ inside).overwrite inv member here elsewhere written tail
    have again : Coherent K' content' { (pool.withBytes m bytes).decRefCount m true with
        pageTable := ((pool.withBytes m bytes).decRefCount m true).pageTable.setPte m
          ((pool.pageTable.ptes m).setDirty true) }
        (place (mgr.poolOf page)) := released.recount fun clean => absurd clean (by simp [PTE.setDirty])
    have entry : ((pool.withBytes m bytes).decRefCount m true).pageTable.setPte m
        ((pool.pageTable.ptes m).setDirty true) =
        pool.pageTable.setPte m ((pool.pageTable.ptes m).setDirty true) := by
      simp only [BufferPool.decRefCount, PageTable.decRefCount, PageTable.setPte, update_idem]
      rfl
    rw [entry] at again
    exact again
  rw [same]
  have files : SameFiles pool dirtied := ⟨rfl, rfl, rfl, fun _ => rfl, rfl⟩
  have after := sound.setPool inside files (.refl _) marked (sound.settled _ inside)
    coherent fun j bound apart => (sound.coherent j bound).elsewhere (sound.inv j bound) ?_ elsewhere tail
  · rwa [update_eq_self, update_eq_self] at after
  · change (mgr.pools j).pageTable.partitioner.getPartitionId _ ≠ (mgr.pools j).poolId
    rw [sound.partitioner j bound, sound.poolId j bound]
    exact Ne.symm apart

/-- The pools hold the bytes of the files after every step. -/
theorem LiveStep.holds {s s' : Session R} (before : s.Holds) (step : LiveStep s s') : s'.Holds := by
  cases step with
  | session step => exact step.holds before
  | update inFile pin bytes past =>
    obtain ⟨place, sound, quiet⟩ := before
    have here := sound.resident_of_pin inFile pin
    refine ⟨place, sound.update pin here (fun fd i apart => ⟨id, if_neg apart⟩) (fun i small _ => ?_)
      (sound.tail_stored here past), quiet⟩
    exact (stored_position small).symm

theorem LiveRun.holds {s : Session R} (run : LiveRun s) : s.Holds :=
  run.invariant (fun _ start => start.holds) fun _ _ before step => step.holds before

omit [Replacer R] [LawfulReplacer R] in
/-- The pages of a range that lies in the file. -/
theorem InRange.pagesIn (range : InRange mgr fd fileOffset blockSize) : mgr.PagesIn fd fileOffset blockSize := by
  intro k inside
  refine ⟨range.handle, range.valid, range.small, ?_⟩
  · have within := range.inside
    have start := Nat.div_mul_le_self (fileOffset + blockSize - 1) pageSize
    unfold pageCount at inside
    split_ifs at inside with none
    · exact absurd inside (Nat.not_lt_zero k)
    have last : fileOffset / pageSize ≤ (fileOffset + blockSize - 1) / pageSize := Nat.div_le_div_right (by omega)
    have before : fileOffset / pageSize + k ≤ (fileOffset + blockSize - 1) / pageSize := by omega
    have page := Nat.mul_le_mul_right pageSize before
    dsimp only [pageAt]
    omega

omit [Replacer R] [LawfulReplacer R] in
theorem SameShape.pagesIn (shape : SameShape mgr mgr') (inFile : mgr.PagesIn fd fileOffset blockSize) :
    mgr'.PagesIn fd fileOffset blockSize :=
  fun k inside => shape.inFile (inFile k inside)

omit [Replacer R] [LawfulReplacer R] in
theorem sameShape_update (mgr : BufferPoolManager R) (page : Page) (bytes : Bytes) (pte : EntryId) :
    SameShape mgr ((mgr.setFrame page m bytes).setDirty pte) := ⟨rfl, rfl, .refl _⟩

/-- A page is pinned where its pool has a frame for it, or has it in a frame. -/
theorem LiveRun.pin (run : LiveRun ⟨mgr, content, pins⟩) (inFile : InFile mgr page)
    (able : mgr.Fetchable pins page) :
    ∃ m mgr', Returns (fun fuel => mgr.fetchPageSync fuel page) (m, mgr') := by
  obtain ⟨place, sound, quiet⟩ := run.holds
  have pool := mgr.poolOf_lt page
  have inv := sound.inv _ pool
  rcases able with frames | ⟨m, here⟩
  · rw [← sound.poolSize _ pool] at frames
    obtain ⟨m, pool', returned⟩ := inv.fetchPageSync_complete (quiet _ pool) (sound.owns inFile) frames
    exact ⟨m, _, mgr.fetchPageSync_pool page returned⟩
  · obtain ⟨r, _, pinned, _⟩ := inv.exists_pin ((inv.mapped page (sound.owns inFile) m).mp here)
    have returned : Returns (fun fuel => BufferPool.fetchPageSync fuel page (mgr.pool (mgr.poolOf page)))
        (m, (mgr.pool (mgr.poolOf page)).withPin m r) :=
      .congr (fun fuel => by rw [BufferPool.fetchPageSync, pinned]; rfl) .const
    exact ⟨m, _, mgr.fetchPageSync_pool page returned⟩

/-- A fetch that returns has pinned the page. -/
theorem LiveRun.pinned (run : LiveRun ⟨mgr, content, pins⟩) (inFile : InFile mgr page)
    (room : ∀ m, Room (pins (mgr.poolOf page)) m)
    (ran : Returns (fun fuel => mgr.fetchPageSync fuel page) (m, mgr')) : SameShape mgr mgr' ∧
      LiveStep ⟨mgr, content, pins⟩
        ⟨mgr', content, update pins (mgr.poolOf page) ((page, m) :: pins (mgr.poolOf page))⟩ := by
  obtain ⟨_, sound, _⟩ := run.holds
  obtain ⟨_, _, _, shape, _⟩ := sound.fetched inFile room ran
  exact ⟨shape, .session (.fetch inFile room ran)⟩

/-- The pages of a block are in different frames, so it adds one pin to a frame at most. -/
theorem LiveRun.countP_hold (run : LiveRun ⟨mgr', content, mgr.hold pins (blockPins fd fileOffset frames)⟩)
    (shape : SameShape mgr mgr') (inFile : ∀ k < frames.length, InFile mgr (pageAt fd fileOffset k)) (i m : ℕ) :
    (mgr.hold pins (blockPins fd fileOffset frames) i).countP (·.2 = m) ≤ (pins i).countP (·.2 = m) + 1 := by
  obtain ⟨place, sound, _⟩ := run.holds
  dsimp only at sound
  have resident (pin : Page × ℕ) (member : pin ∈ blockPins fd fileOffset frames) :
      place (mgr.poolOf pin.1) pin.2 = .resident pin.1 := by
    obtain ⟨k, inside, rfl⟩ := List.mem_mapIdx.mp member
    have here := sound.resident_of_pin (shape.inFile (inFile k inside))
      (by rw [shape.poolOf]; exact retains_hold _ _ _ _ member)
    rwa [shape.poolOf] at here
  have one : (((blockPins fd fileOffset frames).filter (mgr.poolOf ·.1 = i)).filter (·.2 = m)).length ≤ 1 := by
    have distinct := ((blockPins_nodup fd fileOffset frames).filter (mgr.poolOf ·.1 = i)).filter (·.2 = m)
    rw [← List.toFinset_card_of_nodup distinct, Finset.card_le_one]
    simp only [List.mem_toFinset, List.mem_filter, decide_eq_true_eq]
    rintro first ⟨⟨member, rfl⟩, rfl⟩ second ⟨⟨member', pool⟩, frame⟩
    have here := resident second member'
    rw [pool, frame, resident first member] at here
    exact Prod.ext (Place.resident.inj here) frame.symm
  rw [(hold_perm mgr pins _ i).countP_eq, List.countP_append, List.countP_eq_length_filter]
  omega

/-- What `GetBlockSync` has done after its first pages. -/
def Inserted (mgr : BufferPoolManager R) (content : Content) (pins : ℕ → List (Page × ℕ))
    (fd fileOffset blockSize : ℕ) (done : ℕ) (s : BufferBlock × BufferPoolManager R) : Prop :=
  ∃ frames : List ℕ, frames.length = done ∧ SameShape mgr s.2 ∧
    s.1 = ⟨blockSize, 0, (mgr.framePages fd fileOffset frames).map some ++
      List.replicate (pageCount fileOffset blockSize - done) none⟩ ∧
    LiveRun ⟨s.2, content, mgr.hold pins (blockPins fd fileOffset frames)⟩

/-- The next page has been fetched and inserted. -/
theorem Inserted.step {s s' : BufferBlock × BufferPoolManager R} {fuel : ℕ}
    (inserted : Inserted mgr content pins fd fileOffset blockSize k s) (inFile : mgr.PagesIn fd fileOffset blockSize)
    (counts : mgr.CountsBelow pins) (inside : k < pageCount fileOffset blockSize)
    (ran : insertFetched fileOffset fd fuel s k = .ok s') :
    Inserted mgr content pins fd fileOffset blockSize (k + 1) s' := by
  obtain ⟨block, mgr₁⟩ := s
  obtain ⟨frames, rfl, shape, same, run⟩ := inserted
  dsimp only at shape run same
  subst same
  have inFileK := inFile _ inside
  set page := pageAt fd fileOffset frames.length with page_eq
  have number : (fpageIdOf fileOffset + frames.length) % fpageIdRange = fileOffset / pageSize + frames.length := by
    have bound : fileOffset / pageSize + frames.length < fpageIdRange := inFileK.fpageId_lt
    rw [fpageIdOf, Nat.mod_add_mod, Nat.mod_eq_of_lt bound]
  have room (m : ℕ) : Room (mgr.hold pins (blockPins fd fileOffset frames) (mgr₁.poolOf page)) m := by
    have held := run.countP_hold shape (fun k before => inFile k (before.trans inside)) (mgr₁.poolOf page) m
    have few := counts (mgr₁.poolOf page) (by rw [shape.poolOf]; exact mgr.poolOf_lt page) m
    unfold Room
    omega
  simp only [insertFetched, number] at ran
  obtain ⟨⟨m, mgr₂⟩, fetched, ran⟩ := bind_eq_ok.mp ran
  obtain ⟨shape', step⟩ := run.pinned (shape.inFile inFileK) room ((fetchPageSync_stable _ _).returns fetched)
  have both := shape.trans shape'
  have pages := @BufferBlock.insertPage_next blockSize 0 (pageCount fileOffset blockSize)
    (mgr.framePages fd fileOffset frames) (length_framePages.trans_lt inside)
    (mgr.blockPage page m (entryAt fileOffset frames.length))
  have entered : mgr₂.blockPage page m (entryAt fileOffset frames.length) =
      mgr.blockPage page m (entryAt fileOffset frames.length) := by
    rw [blockPage, frameAddress, both.poolOf, both.poolSize]
    rfl
  rw [length_framePages, ← framePages_concat, ← entered] at pages
  obtain ⟨block, insertedPage, ran⟩ := bind_eq_ok.mp ran
  cases pages.symm.trans insertedPage
  cases ran
  refine ⟨frames ++ [m], ?_, both, rfl, ?_⟩
  · rw [List.length_append, List.length_singleton]
  · rw [blockPins_concat, hold_concat]
    rw [shape.poolOf] at step
    exact run.step step

/-- The next page can be fetched, and inserted. -/
theorem Inserted.next {s : BufferBlock × BufferPoolManager R}
    (inserted : Inserted mgr content pins fd fileOffset blockSize k s) (inFile : mgr.PagesIn fd fileOffset blockSize)
    (frames : mgr.FramesFor pins ((List.range (pageCount fileOffset blockSize)).map (pageAt fd fileOffset)))
    (inside : k < pageCount fileOffset blockSize) :
    ∃ s', Returns (fun fuel => insertFetched fileOffset fd fuel s k) s' := by
  obtain ⟨block, mgr₁⟩ := s
  obtain ⟨taken, rfl, shape, same, run⟩ := inserted
  dsimp only at shape run same
  subst same
  have inFile := inFile _ inside
  set page := pageAt fd fileOffset taken.length with page_eq
  have enough := frames page (List.mem_map.mpr ⟨_, List.mem_range.mpr inside, rfl⟩)
  -- The page is one of those its pool has frames for, and it has given fewer of them so far.
  have share : (blockPins fd fileOffset taken).countP (mgr.poolOf ·.1 = mgr.poolOf page) <
      ((List.range (pageCount fileOffset blockSize)).map (pageAt fd fileOffset)).countP
        (mgr.poolOf · = mgr.poolOf page) := by
    have more : List.range (pageCount fileOffset blockSize) = List.range (taken.length + 1) ++
        (List.range (pageCount fileOffset blockSize - (taken.length + 1))).map (taken.length + 1 + ·) := by
      rw [← List.range_add]
      congr 1
      omega
    rw [countP_blockPins, more, List.range_succ]
    simp only [List.map_append, List.countP_append, List.map_cons, List.map_nil, ← page_eq, List.countP_singleton,
      decide_true, if_true]
    omega
  have able : mgr₁.Fetchable (mgr.hold pins (blockPins fd fileOffset taken)) page := by
    left
    rw [length_hold, shape.poolSize, shape.poolOf]
    omega
  obtain ⟨m, mgr₂, fetched⟩ := run.pin (shape.inFile inFile) able
  have number : (fpageIdOf fileOffset + taken.length) % fpageIdRange = fileOffset / pageSize + taken.length := by
    have bound : fileOffset / pageSize + taken.length < fpageIdRange := inFile.fpageId_lt
    rw [fpageIdOf, Nat.mod_add_mod, Nat.mod_eq_of_lt bound]
  have pages := @BufferBlock.insertPage_next blockSize 0 (pageCount fileOffset blockSize)
    (mgr.framePages fd fileOffset taken) (length_framePages.trans_lt inside)
    (mgr₂.blockPage page m (entryAt fileOffset taken.length))
  rw [length_framePages] at pages
  generalize BufferBlock.mk blockSize 0 ((mgr.framePages fd fileOffset taken ++ _).map some ++ _) = after at pages
  simp only [insertFetched, number]
  refine ⟨(after, mgr₂), fetched.bind (.congr (fun fuel => ?_) .const)⟩
  change (do
    let block ← BufferBlock.insertPage _ _ (mgr₂.blockPage page m (entryAt fileOffset taken.length))
    return (block, mgr₂)) = _
  rw [pages]
  rfl

/-- What a call of `GetBlockSync` that returned has done: it has pinned the pages of the block. -/
theorem LiveRun.gotBlockSync {block : BufferBlock} (run : LiveRun ⟨mgr, content, pins⟩) (positive : 0 < blockSize)
    (inFile : mgr.PagesIn fd fileOffset blockSize) (counts : mgr.CountsBelow pins)
    (ran : Returns (fun fuel => mgr.getBlockSync fuel fileOffset blockSize fd) (block, mgr')) :
    ∃ frames, frames.length = pageCount fileOffset blockSize ∧ SameShape mgr mgr' ∧
      block = mgr.blockIn fd fileOffset blockSize frames ∧
      LiveRun ⟨mgr', content, mgr.hold pins (blockPins fd fileOffset frames)⟩ := by
  obtain ⟨fuel, ran⟩ := ran
  have ran := ran fuel le_rfl
  simp only [BufferPoolManager.getBlockSync, if_neg (Nat.pos_iff_ne_zero.mp positive), pageNum_eq positive] at ran
  have start : Inserted mgr content pins fd fileOffset blockSize 0
      (.new blockSize (pageCount fileOffset blockSize), mgr) := ⟨[], rfl, .refl _, rfl, run⟩
  have ends := @Ends.foldlM_range _ _ (fun _ => True) (insertFetched fileOffset fd fuel)
    (Inserted mgr content pins fd fileOffset blockSize) (pageCount fileOffset blockSize)
    (fun k inside s inserted => by
      cases next : insertFetched fileOffset fd fuel s k with
      | error stop => trivial
      | ok s' => exact inserted.step inFile counts inside next) _ start
  rw [ran] at ends
  obtain ⟨frames, all, shape, same, run'⟩ := ends
  rw [Nat.sub_self, List.replicate_zero, List.append_nil] at same
  exact ⟨frames, all, shape, same, run'⟩

/-- `GetBlockSync` returns where every pool has frames for its pages. -/
theorem LiveRun.exists_getBlockSync (run : LiveRun ⟨mgr, content, pins⟩) (positive : 0 < blockSize)
    (inFile : mgr.PagesIn fd fileOffset blockSize) (counts : mgr.CountsBelow pins)
    (frames : mgr.FramesFor pins ((List.range (pageCount fileOffset blockSize)).map (pageAt fd fileOffset))) :
    ∃ block mgr', Returns (fun fuel => mgr.getBlockSync fuel fileOffset blockSize fd) (block, mgr') := by
  have start : Inserted mgr content pins fd fileOffset blockSize 0
      (.new blockSize (pageCount fileOffset blockSize), mgr) := ⟨[], rfl, .refl _, rfl, run⟩
  obtain ⟨⟨block, mgr'⟩, returned, _⟩ :=
    Returns.foldlM_range (Inserted mgr content pins fd fileOffset blockSize) (fun k inside s inserted => by
      obtain ⟨s', returned⟩ := inserted.next inFile frames inside
      obtain ⟨fuel, ran⟩ := id returned
      exact ⟨s', returned, inserted.step inFile counts inside (ran fuel le_rfl)⟩) start
  refine ⟨block, mgr', ?_⟩
  simpa only [BufferPoolManager.getBlockSync, if_neg (Nat.pos_iff_ne_zero.mp positive), pageNum_eq positive]
    using returned

/-- A pinned frame is one of its pool. -/
theorem LiveRun.frame_lt {s : Session R} (run : LiveRun s) (inFile : InFile s.mgr page)
    (pin : (page, m) ∈ s.pins (s.mgr.poolOf page)) : m < s.mgr.poolSize := by
  obtain ⟨place, sound, _⟩ := run.holds
  have pool := s.mgr.poolOf_lt page
  by_contra past
  have absent := ((sound.inv _ pool).absent m).mpr ((sound.poolSize _ pool).trans_le (Nat.not_lt.mp past))
  rw [sound.resident_of_pin inFile pin] at absent
  cases absent

/-- While the pin of a page is held, its frame has the bytes of the file. -/
theorem LiveRun.pinned_byte {s : Session R} (run : LiveRun s) (inFile : InFile s.mgr page)
    (pin : (page, m) ∈ s.pins (s.mgr.poolOf page)) {r : ℕ} (small : r < pageSize) (heap : Bytes) :
    s.mgr.byteAt heap (s.mgr.frameAddress (s.mgr.poolOf page) m + r) = s.content page.fd (page.position r) := by
  obtain ⟨place, sound, _⟩ := run.holds
  rw [byteAt_frame (s.mgr.poolOf_lt page) (run.frame_lt inFile pin) small,
    ← sound.frame_byte (sound.resident_of_pin inFile pin) small trivial]
  rfl

/-- A block that has not been freed shows the file as it is. -/
theorem LiveRun.blockBytes {s : Session R} (run : LiveRun s) (inFile : s.mgr.PagesIn fd fileOffset blockSize)
    (pages : frames.length = pageCount fileOffset blockSize)
    (kept : s.mgr.Retains s.pins (blockPins fd fileOffset frames)) (heap : Bytes) :
    s.mgr.blockBytes heap (s.mgr.blockIn fd fileOffset blockSize frames) =
      (List.range blockSize).map fun i => s.content fd (fileOffset + i) := by
  apply List.map_congr_left
  intro i member
  have inside : i < blockSize := List.mem_range.mp member
  obtain ⟨k, m, r, here, small, position, address⟩ := @address_blockIn _ s.mgr fd fileOffset _ frames i pages inside
  have within : k < pageCount fileOffset blockSize := by
    rw [← pages]
    exact (List.getElem?_eq_some_iff.mp here).1
  rw [address, run.pinned_byte (inFile k within) (kept _ (mem_blockPins here)) small heap]
  exact congrArg (s.content fd) position

/-- Programs that go on from a state. -/
abbrev Later (s s' : Session R) : Prop := Relation.ReflTransGen LiveStep s s'

omit [LawfulReplacer R] in
theorem LiveRun.later {s s' : Session R} (run : LiveRun s) (later : Later s s') : LiveRun s' := by
  induction later with
  | refl => exact run
  | tail _ step ih => exact ih.step step

/-- No step changes the number of pools or their size. -/
theorem LiveStep.fixed {s s' : Session R} (holds : s.Holds) (step : LiveStep s s') :
    s'.mgr.partitioner = s.mgr.partitioner ∧ s'.mgr.poolSize = s.mgr.poolSize := by
  obtain ⟨place, sound, _⟩ := holds
  cases step with
  | session step =>
    cases step with
    | openFile file ran =>
      obtain ⟨_, returned, opens⟩ := exists_openFile _ file
      cases returned.symm.trans ran
      exact ⟨opens.partitioner, opens.poolSize⟩
    | resize bound valid clean ran =>
      obtain ⟨_, _, resizes⟩ := resize_returned ran
      exact ⟨resizes.partitioner, resizes.poolSize⟩
    | fetch inFile room ran =>
      obtain ⟨_, _, _, shape, _⟩ := sound.fetched inFile room ran
      exact ⟨shape.partitioner, shape.poolSize⟩
    | release | write => exact ⟨rfl, rfl⟩
  | update => exact ⟨rfl, rfl⟩

theorem LiveRun.fixed {s s' : Session R} (run : LiveRun s) (later : Later s s') :
    s'.mgr.partitioner = s.mgr.partitioner ∧ s'.mgr.poolSize = s.mgr.poolSize := by
  induction later with
  | refl => exact ⟨rfl, rfl⟩
  | tail before step ih =>
    obtain ⟨partitioner, poolSize⟩ := step.fixed (run.later before).holds
    exact ⟨partitioner.trans ih.1, poolSize.trans ih.2⟩

/-- The manager after some pins have been given back, the last one first. -/
def dropAll (mgr : BufferPoolManager R) (taken : List (Page × ℕ)) : BufferPoolManager R :=
  taken.foldr (fun pin mgr => mgr.decRefCount pin.1 pin.2 false) mgr

omit [Replacer R] [LawfulReplacer R] in
theorem dropAll_poolOf (mgr : BufferPoolManager R) (taken : List (Page × ℕ)) (page : Page) :
    (mgr.dropAll taken).poolOf page = mgr.poolOf page := by
  induction taken with
  | nil => rfl
  | cons pin rest ih => exact ih

omit [LawfulReplacer R] in
/-- Pins may be given back one after the other. -/
theorem LiveRun.dropAll {s : Session R} (run : LiveRun s) (distinct : taken.Nodup)
    (kept : s.mgr.Retains s.pins taken) : LiveRun ⟨s.mgr.dropAll taken, s.content, s.mgr.letGo s.pins taken⟩ := by
  induction taken with
  | nil => exact run
  | cons pin rest ih =>
    obtain ⟨once, distinct⟩ := List.nodup_cons.mp distinct
    have before := ih distinct fun other member => kept other (List.mem_cons_of_mem _ member)
    have there : pin ∈ s.mgr.letGo s.pins rest (s.mgr.poolOf pin.1) := mem_letGo once (kept pin List.mem_cons_self)
    rw [← dropAll_poolOf s.mgr rest] at there
    have after := before.step (.session (.release there false))
    dsimp only at after
    rw [dropAll_poolOf] at after
    exact after

omit [Replacer R] [LawfulReplacer R] in
/-- `free` gives back the pins of a block. -/
theorem giveBack_blockIn (mgr : BufferPoolManager R) (fd fileOffset : ℕ) (frames : List ℕ) :
    ((mgr.framePages fd fileOffset frames).reverse.map BlockPage.release).foldl giveBack mgr =
      mgr.dropAll (blockPins fd fileOffset frames) := by
  have pins : (mgr.framePages fd fileOffset frames).map BlockPage.release =
      (blockPins fd fileOffset frames).map fun pin => .decRefCount ⟨mgr.poolOf pin.1, pin.2⟩ := by
    apply List.ext_getElem?
    intro k
    simp only [framePages, blockPins, List.getElem?_map, List.getElem?_mapIdx, Option.map_map]
    rfl
  have drop (taken : List (Page × ℕ)) : (taken.map fun pin => Release.decRefCount ⟨mgr.poolOf pin.1, pin.2⟩).foldr
      (fun release mgr => giveBack mgr release) mgr = mgr.dropAll taken := by
    induction taken with
    | nil => rfl
    | cons pin rest ih =>
      change _ = (mgr.dropAll rest).decRefCount pin.1 pin.2 false
      rw [List.map_cons, List.foldr_cons, ih, giveBack, BufferPoolManager.decRefCount, dropAll_poolOf]
  rw [List.map_reverse, pins, List.foldl_reverse]
  exact drop _

/-- Any block that `GetBlockSync` returns has the pages of its range and is a view of it until it is freed: whatever
files are opened or resized and whatever pages are fetched, stored and released in the meantime, its bytes are those
of the file, and `free` gives back its own pins. -/
theorem block_stays_live {s : Session R} (run : LiveRun s) (positive : 0 < blockSize)
    (inFile : s.mgr.PagesIn fd fileOffset blockSize) (counts : s.mgr.CountsBelow s.pins) :
    (s.mgr.FramesFor s.pins ((List.range (pageCount fileOffset blockSize)).map (pageAt fd fileOffset)) →
      ∃ block mgr', Returns (fun fuel => s.mgr.getBlockSync fuel fileOffset blockSize fd) (block, mgr')) ∧
    ∀ block mgr', Returns (fun fuel => s.mgr.getBlockSync fuel fileOffset blockSize fd) (block, mgr') →
      block.Whole ∧
      ∃ taken, taken.map Prod.fst = (List.range (pageCount fileOffset blockSize)).map (pageAt fd fileOffset) ∧
      SameShape s.mgr mgr' ∧ LiveRun ⟨mgr', s.content, s.mgr.hold s.pins taken⟩ ∧
      ∀ s', Later ⟨mgr', s.content, s.mgr.hold s.pins taken⟩ s' → s'.mgr.Retains s'.pins taken →
        (s'.mgr.PagesIn fd fileOffset blockSize → ∀ heap,
          s'.mgr.blockBytes heap block = (List.range blockSize).map fun i => s'.content fd (fileOffset + i)) ∧
        ∃ releases, block.free = .ok (releases, block.emptied) ∧
          LiveRun ⟨releases.foldl giveBack s'.mgr, s'.content, s'.mgr.letGo s'.pins taken⟩ := by
  refine ⟨run.exists_getBlockSync positive inFile counts, fun block mgr' ran => ?_⟩
  obtain ⟨frames, pages, shape, rfl, held⟩ := run.gotBlockSync positive inFile counts ran
  refine ⟨blockIn_whole positive pages, blockPins fd fileOffset frames, ?_, shape, held, ?_⟩
  · rw [blockPins_pages, pages]
  · intro s' later kept
    have after := held.later later
    obtain ⟨partitioner, poolSize⟩ := held.fixed later
    have same := @blockIn_congr _ s.mgr s'.mgr fd fileOffset blockSize frames (partitioner.trans shape.partitioner)
      (poolSize.trans shape.poolSize)
    rw [← same]
    refine ⟨fun inFile heap => after.blockBytes inFile pages kept heap, _, BufferBlock.free_pages positive _, ?_⟩
    rw [giveBack_blockIn]
    exact after.dropAll (blockPins_nodup ..) kept

/-- The state of two pools of one frame each, over a file of 5000 zeros. -/
def twoPoolsOpen : Session SieveReplacer_v3 :=
  ⟨twoPools, opened (fun _ _ => 0) 0 (zeroFile 5000 (by decide)).1, fun _ => []⟩

/-- Each of the two pools has a frame for its page. -/
theorem twoPoolsOpen_frames : twoPoolsOpen.mgr.FramesFor twoPoolsOpen.pins [⟨0, 0⟩, ⟨0, 1⟩] := by
  unfold FramesFor
  decide

theorem twoPoolsOpen_counts : twoPoolsOpen.mgr.CountsBelow twoPoolsOpen.pins := by
  intro i _ m
  change ([] : List (Page × ℕ)).countP _ + 2 < _
  rw [List.countP_nil]
  decide

/-- A block of two pages, one in each pool, before and after a program has stored into the second page. -/
theorem block_stays_live_twoPools : ∃ block mgr' m mgr'',
    Returns (fun fuel => twoPools.getBlockSync fuel 4092 8 0) (block, mgr') ∧
      mgr'' = (mgr'.setFrame ⟨0, 1⟩ m fun i => if i < 904 then 7 else mgr'.frame ⟨0, 1⟩ m i).setDirty
        ⟨mgr'.poolOf ⟨0, 1⟩, m⟩ ∧
      ∀ heap, mgr'.blockBytes heap block = List.replicate 8 0 ∧
        mgr''.blockBytes heap block = List.replicate 4 0 ++ List.replicate 4 7 := by
  have run : LiveRun twoPoolsOpen := .init (.init _ _ _ _)
  have range : InRange twoPoolsOpen.mgr 0 4092 8 := ⟨by decide, rfl, by decide, by decide⟩
  have pages : (List.range (pageCount 4092 8)).map (pageAt 0 4092) = [⟨0, 0⟩, ⟨0, 1⟩] := by decide
  obtain ⟨exist, views⟩ := block_stays_live run (by decide) range.pagesIn twoPoolsOpen_counts
  rw [pages] at exist views
  obtain ⟨block, mgr', returned⟩ := exist twoPoolsOpen_frames
  obtain ⟨_, taken, covered, shape, held, view⟩ := views block mgr' returned
  have kept : mgr'.Retains (twoPoolsOpen.mgr.hold twoPoolsOpen.pins taken) taken := by
    intro pin member
    rw [shape.poolOf]
    exact retains_hold _ _ _ pin member
  obtain ⟨m, member⟩ : ∃ m, ((⟨0, 1⟩ : Page), m) ∈ taken := by
    have member : (⟨0, 1⟩ : Page) ∈ taken.map Prod.fst := by simp [covered]
    obtain ⟨⟨page, m⟩, member, rfl⟩ := List.mem_map.mp member
    exact ⟨m, member⟩
  have inFile : InFile mgr' ⟨0, 1⟩ := shape.inFile ⟨by decide, rfl, by decide, by decide⟩
  have size : mgr'.disk.getFileSizeFast 0 = 5000 := shape.handles.size 0
  set bytes : Bytes := fun i => if i < 904 then 7 else mgr'.frame ⟨0, 1⟩ m i with bytes_eq
  have stores := LiveStep.update (s := ⟨mgr', twoPoolsOpen.content, _⟩) inFile (kept _ member) bytes
    fun i small behind => if_neg (by
      change mgr'.disk.getFileSizeFast 0 ≤ 1 * pageSize + i at behind
      rw [size] at behind
      unfold pageSize at behind
      omega)
  refine ⟨block, mgr', m, _, returned, rfl, fun heap => ⟨?_, ?_⟩⟩
  · have bytes := (view _ .refl kept).1 (shape.pagesIn range.pagesIn) heap
    have zeros (i : ℕ) : twoPoolsOpen.content 0 (4092 + i) = 0 := rfl
    rw [bytes]
    simp only [zeros, List.map_const', List.length_range]
  · obtain ⟨live, _⟩ := view _ (.single stores) kept
    have values (j : ℕ) (member : j ∈ List.range 8) :
        stored twoPoolsOpen.content ⟨0, 1⟩ bytes 0 (4092 + j) = if j < 4 then 0 else 7 := by
      have inside : j < 8 := List.mem_range.mp member
      rcases Nat.lt_or_ge j 4 with first | second
      · have apart : ¬ (⟨0, 1⟩ : Page).Contains 0 (4092 + j) := by
          rintro ⟨_, page⟩
          change (4092 + j) / pageSize = 1 at page
          unfold pageSize at page
          omega
        rw [stored, if_neg apart, if_pos first]
        rfl
      · have page : (⟨0, 1⟩ : Page).Contains 0 (4092 + j) := by
          refine ⟨rfl, ?_⟩
          change (4092 + j) / pageSize = 1
          unfold pageSize
          omega
        rw [stored, if_pos page, if_neg (Nat.not_lt.mpr second), bytes_eq]
        exact if_pos (by unfold pageSize; omega)
    have within := (shape.trans (sameShape_update mgr' ⟨0, 1⟩ (m := m) bytes ⟨mgr'.poolOf ⟨0, 1⟩, m⟩)).pagesIn
      range.pagesIn
    refine (live within heap).trans ?_
    exact (List.map_congr_left values).trans (by decide)

end BufferPoolManager

end Gbp
