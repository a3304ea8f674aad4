import GraphBufferPool.Lib.Refill
import GraphBufferPool.Pool.Serves
import GraphBufferPool.Replacer.SieveOrder

/-! # A pool as a cache of the pages of one file

Between calls, with the pins of other files held: the unpinned frames are queued in the order in which `Victim` would
take them, and those count as filled that hold a page of the file. A read of a page of the file pins it and releases the
pin; it is a read of the cache. A frame that a closed file left can not be evicted.
-/

namespace Gbp.BufferPool

open Function LawfulReplacer Fuel Refill

/-- The number of the page of a file that the frame in this place holds. -/
def Place.pageOf (fd : ℕ) : Place → Option ℕ
  | .resident page => if page.fd = fd then some page.fpageId else none
  | _ => none

theorem Place.pageOf_eq_some {place : Place} {fd k : ℕ} : place.pageOf fd = some k ↔ place = .resident ⟨fd, k⟩ := by
  cases place with
  | resident page =>
    obtain ⟨other, j⟩ := page
    simp only [pageOf]
    split_ifs with same
    · simp [same]
    · simp [same]
  | absent | free | stuck | orphan | loading => simp [pageOf]

/-- The frame is not left from a closed file. -/
def Unorphaned (place : ℕ → Place) (m : ℕ) : Prop := ∀ page, place m ≠ .orphan page

/-- No pin is on the frame. -/
def unheld (pins : List (Page × ℕ)) (m : ℕ) : Bool := pins.countP (fun pin => pin.2 = m) = 0

variable {pool pool' mid : BufferPool SieveReplacer_v3} {place place' : ℕ → Place} {pins : List (Page × ℕ)}
  {page : Page}
  {fd k m : ℕ}

theorem Rests.resident_or_orphan (rests : Rests pool place pins) (tracked : m ∈ pool.replacer.list.nodes) :
    (∃ page, place m = .resident page) ∨ ∃ page, place m = .orphan page := by
  have used : (place m).page? ≠ none := rests.strict m tracked
  cases here : place m with
  | resident page => exact Or.inl ⟨page, rfl⟩
  | orphan page => exact Or.inr ⟨page, rfl⟩
  | stuck page => exact absurd (Or.inl here) (rests.unlocked m page)
  | loading page => exact absurd (Or.inr here) (rests.unlocked m page)
  | absent | free => simp [here, Place.page?] at used

/-- The count of a tracked frame is that of its pins. -/
theorem Rests.unpinned_eq (rests : Rests pool place pins) (tracked : m ∈ pool.replacer.list.nodes) :
    pool.pageTable.unpinned m = unheld pins m := by
  have counted : (pool.pageTable.ptes m).refCount = pins.countP fun pin => pin.2 = m := by
    rcases rests.resident_or_orphan tracked with ⟨page, here⟩ | ⟨page, here⟩
    · exact rests.inv.counted m page (Or.inl here)
    · exact rests.inv.counted m page (Or.inr here)
  rw [PageTable.unpinned, counted, unheld]

/-- The frames in the order in which they would be evicted. -/
def victims (pool : BufferPool SieveReplacer_v3) : List ℕ := pool.replacer.evictionOrder.filter pool.pageTable.unpinned

theorem Rests.victims_eq (rests : Rests pool place pins) :
    pool.victims = pool.replacer.evictionOrder.filter (unheld pins) :=
  List.filter_congr fun _ member => rests.unpinned_eq (SieveReplacer_v3.mem_evictionOrder.mp member)

theorem Rests.mem_victims (rests : Rests pool place pins) :
    m ∈ pool.victims ↔ m ∈ pool.replacer.list.nodes ∧ unheld pins m := by
  rw [rests.victims_eq, List.mem_filter, SieveReplacer_v3.mem_evictionOrder]

/-- The cache of the pages of a file that a pool is. -/
def Rests.cache (rests : Rests pool place pins) (fd : ℕ) : Cache ℕ ℕ where
  free := pool.freeList
  queue := pool.victims
  marked := fun m => pool.replacer.list.val m ≠ 0
  page := fun m => (place m).pageOf fd
  nodup := (pool.replacer.evictionOrder_perm.nodup_iff.mpr rests.ready.1.distinct).filter _
  fresh := by
    intro m free member
    have used : (place m).page? ≠ none := rests.strict m (rests.mem_victims.mp member).1
    rw [(rests.inv.free m).mp free] at used
    exact used rfl
  once := by
    intro m _ k _ p here there
    rw [Place.pageOf_eq_some] at here there
    have same := (rests.inv.word?_resident here).symm.trans (rests.inv.word?_resident there)
    exact MapWord.frame.inj (Option.some.inj same)
  first := by
    intro m rest front marked
    rw [victims, SieveReplacer_v3.evictionOrder, SecondChance.order_filter] at front
    exact SecondChance.marked_of_first front marked

/-- The cache reads the free list, the replacer and the counts. -/
theorem Rests.cache_congr (rests : Rests pool place pins) (rests' : Rests pool' place' pins)
    (free : pool'.freeList = pool.freeList) (replacer : pool'.replacer = pool.replacer) (same : place' = place) :
    rests'.cache fd = rests.cache fd := by
  subst same
  have queue : pool'.victims = pool.victims := by rw [rests'.victims_eq, rests.victims_eq, replacer]
  simp only [Rests.cache, free, replacer, queue]

/-- A fetch turns no frame into an orphan, and takes none. -/
theorem Fetched.usable (fetched : Fetched pool place page m pool' place') (k : ℕ) :
    Unorphaned place' k ↔ Unorphaned place k := by
  cases fetched with
  | hit => rfl
  | load _ _ _ _ loaded =>
    rcases eq_or_ne k m with rfl | apart
    · have before : Unorphaned place k := by
        intro other orphan
        rcases loaded.source with ⟨spare, _⟩ | ⟨old, here, _⟩
        · cases spare.symm.trans orphan
        · cases here.symm.trans orphan
      refine iff_of_true (fun other orphan => ?_) before
      rw [update_self] at orphan
      cases orphan
    · rw [Unorphaned, update_of_ne apart, Unorphaned]

/-- What a sweep finds of the tracked frames while the empty mapping of a page is locked. -/
theorem Rests.evictable (rests : Rests pool place pins) (owns : pool.Owns page)
    (empty : pool.pageTable.word? page = some .empty) {other : Page} (here : place m = .resident other)
    (unpinned : (pool.pageTable.ptes m).refCount = 0) : (pool.lockPage page).pageTable.Evictable m := by
  refine ⟨?_, (rests.inv.settled m other here).1, unpinned⟩
  rw [lockPage, PageTable.setWord_ptes, rests.inv.described m other (by simp [here, Place.page?]),
    owns.setWord_word? (rests.inv.owned m other (Or.inl here)), if_neg, rests.inv.word?_resident here]
  rintro rfl
  rw [rests.inv.word?_resident here] at empty
  cases empty

theorem Rests.clear (rests : Rests pool place pins) (owns : pool.Owns page)
    (empty : pool.pageTable.word? page = some .empty) :
    (pool.lockPage page).pageTable.Clear pool.replacer.list.nodes := by
  intro m tracked unpinned
  rcases rests.resident_or_orphan tracked with ⟨other, here⟩ | ⟨other, here⟩
  · exact Or.inl (rests.evictable owns empty here unpinned)
  · right
    rw [lockPage, PageTable.setWord_ptes, rests.inv.described m other (by simp [here, Place.page?]),
      PageTable.setWord_word?_eq_none]
    exact rests.inv.word?_orphan here

/-- A page with an empty mapping is not held. -/
theorem Rests.missing (rests : Rests pool place pins) (empty : pool.pageTable.word? ⟨fd, k⟩ = some .empty) :
    k ∉ (rests.cache fd).held := by
  intro held
  obtain ⟨m, _, here⟩ := Cache.mem_held.mp held
  have word := rests.inv.word?_resident (Place.pageOf_eq_some.mp here)
  rw [empty] at word
  cases word

/-- No one holds a page of the file that a pool has of it. -/
theorem Rests.unheld_resident (rests : Rests pool place pins) (free : ∀ pin ∈ pins, pin.1.fd ≠ fd)
    (here : place m = .resident ⟨fd, k⟩) : unheld pins m := by
  refine decide_eq_true (List.countP_eq_zero.mpr ?_)
  rintro ⟨other, j⟩ member same
  obtain rfl : j = m := by simpa using same
  rcases rests.inv.pinned other j member with there | there <;> cases here.symm.trans there
  exact free _ member rfl

/-- The cache after a frame is loaded with a page and handed to the replacer. -/
theorem Rests.cache_inserted (rests : Rests pool place pins) {r : SieveReplacer_v3} (ready : SieveReplacer_v3.Ready r)
    (rests' : Rests pool' (update place m (.resident ⟨fd, k⟩)) pins) (fresh : m ∉ r.list.nodes)
    (free : unheld pins m) (inserted : r.insert m = .ok (true, pool'.replacer)) :
    (rests'.cache fd).page = update (rests.cache fd).page m (some k) ∧
      (rests'.cache fd).queue.filter (· ≠ m) = r.evictionOrder.filter (unheld pins) ∧ m ∈ (rests'.cache fd).queue := by
  refine ⟨funext fun j => ?_, ?_, ?_⟩
  · change (update place m (.resident ⟨fd, k⟩) j).pageOf fd = update (fun m => (place m).pageOf fd) m (some k) j
    by_cases same : j = m
    · rw [same, update_self, update_self, Place.pageOf, if_pos rfl]
    · rw [update_of_ne same, update_of_ne same]
  · change pool'.victims.filter (· ≠ m) = _
    rw [rests'.victims_eq, List.filter_comm, ready.order_insert fresh inserted]
  · refine rests'.mem_victims.mpr ⟨?_, free⟩
    obtain ⟨_, same⟩ := SieveReplacer_v3.insert_returned inserted
    rw [same]
    exact List.mem_cons_self

/-- A read of a page of the file is a read of the cache. -/
theorem Rests.read (rests : Rests pool place pins) (owns : pool.Owns ⟨fd, k⟩)
    (free : ∀ pin ∈ pins, pin.1.fd ≠ fd) (serves : Serves pool place ⟨fd, k⟩ m mid)
    (fetched : Fetched pool place ⟨fd, k⟩ m mid place') (after : pool' = mid.decRefCount m false)
    {places : ℕ → Place} (moved : places = place') (rests' : Rests pool' places pins) :
    Read (Unorphaned place) k (rests.cache fd) (rests'.cache fd) := by
  subst after moved
  have same := fetched.usable m
  cases fetched with
  | hit here r frames =>
    have listed : m ∈ (rests.cache fd).queue :=
      rests.mem_victims.mpr ⟨rests.inv.tracked m ⟨fd, k⟩ (by simp [here, Place.page?]), rests.unheld_resident free here⟩
    have held : (place m).pageOf fd = some k := Place.pageOf_eq_some.mpr here
    cases serves with
    | hit _ sameFree promoted =>
      have marks := SieveReplacer_v3.promote_returned promoted
      refine .hit listed held sameFree rfl ?_ (rests'.mem_victims.mpr ⟨?_, (rests.mem_victims.mp listed).2⟩) ?_ ?_
      · change (victims _).filter (· ≠ m) = pool.victims.filter (· ≠ m)
        rw [rests'.victims_eq]
        have order := congrArg (List.filter (unheld pins)) (SieveReplacer_v3.order_promote promoted)
        rwa [List.filter_comm, List.filter_comm (unheld pins), ← rests.victims_eq] at order
      · change m ∈ r.list.nodes
        rw [show r = _ from marks]
        exact (rests.mem_victims.mp listed).1
      · change r.list.val m ≠ 0
        rw [show r = _ from marks]
        simp [ListArray.setValue]
      · intro j other
        change r.list.val j ≠ 0 ↔ _
        rw [show r = _ from marks]
        simp [ListArray.setValue, update_of_ne other, Rests.cache]
    | fill empty | evict empty => exact absurd (Cache.mem_held.mpr ⟨m, listed, held⟩) (rests.missing empty)
  | load empty bytes _ read loaded =>
    have missing := rests.missing empty
    have unpinned := rests'.unheld_resident free (update_self ..)
    have usable : Unorphaned place m := same.mp fun other orphan => by
      rw [update_self] at orphan
      cases orphan
    cases serves with
    | hit here =>
      have word := rests.inv.word?_resident here
      rw [empty] at word
      cases word
    | fill _ polled inserted =>
      have spare : place m = .free := (rests.inv.free m).mp (by rw [polled]; exact List.mem_cons_self)
      have fresh : m ∉ pool.replacer.list.nodes := fun tracked => by
        have used : (place m).page? ≠ none := rests.strict m tracked
        rw [spare] at used
        exact used rfl
      obtain ⟨page, order, back⟩ := rests.cache_inserted rests.ready rests' fresh unpinned inserted
      exact .fill missing polled page (order.trans rests.victims_eq.symm) back
    | @evict r table _ full full' chosen inserted =>
      have answers (j : ℕ) (tracked : j ∈ pool.replacer.list.nodes) :=
        (rests.inv.settled_lockPage rests.strict owns empty tracked).answers
      obtain ⟨_, _, _, _, nodes, ready⟩ := SieveReplacer_v3.Ready.victim_sound rests.ready answers chosen
      obtain ⟨front, second⟩ := SieveReplacer_v3.Ready.victim_order rests.ready (rests.clear owns empty) chosen
      have fresh : m ∉ r.list.nodes := by
        rw [nodes]
        exact rests.ready.1.distinct.not_mem_erase
      have left {j : ℕ} (linked : j ∈ r.list.nodes) : j ∈ pool.replacer.list.nodes := by
        rw [nodes] at linked
        exact List.mem_of_mem_erase linked
      have rest : r.evictionOrder.filter (unheld pins) = r.evictionOrder.filter pool.pageTable.unpinned :=
        List.filter_congr fun j member =>
          (rests.unpinned_eq (left (SieveReplacer_v3.mem_evictionOrder.mp member))).symm
      obtain ⟨page, order, back⟩ := rests.cache_inserted ready rests' fresh unpinned inserted
      refine .evict missing full full' front usable page (order.trans rest) back
        (second.imp (fun zero marked => marked zero) fun bare j member marked => ?_)
      obtain ⟨listed, free'⟩ := List.mem_filter.mp member
      have linked := SieveReplacer_v3.mem_evictionOrder.mp listed
      have apart : j ≠ m := ne_of_mem_of_not_mem linked fresh
      obtain ⟨_, same⟩ := SieveReplacer_v3.insert_returned inserted
      change mid.replacer.list.val j ≠ 0 at marked
      rw [same] at marked
      exact marked ((update_of_ne apart ..).trans (bare j linked (of_decide_eq_true free')))

/-- A fetch of a page of the file returns where the cache can read it. -/
theorem Rests.exists_fetch (rests : Rests pool place pins) (owns : pool.Owns ⟨fd, k⟩)
    (can : CanRead (Unorphaned place) k (rests.cache fd)) :
    ∃ m pool', Returns (fun fuel => fetchPageSync fuel ⟨fd, k⟩ pool) (m, pool') := by
  have inv := rests.inv
  rcases inv.word?_cases owns with ⟨m, here⟩ | ⟨m, locks⟩ | empty
  · obtain ⟨r, _, pinned, _⟩ := inv.exists_pin here
    exact ⟨m, _, Returns.congr (fun fuel => by rw [fetchPageSync, pinned]; rfl) .const⟩
  · exact absurd locks (rests.unlocked m _)
  · have settled (m : ℕ) (page : Page) (there : place m = .loading page) : False := rests.unlocked m page (Or.inr there)
    rcases can.resolve_left (rests.missing empty) with free | ⟨m, rest, front, usable⟩
    · exact inv.fetchPageSync_free settled owns empty free
    by_cases full : pool.freeList = []
    · have queued : pool.victims = m :: rest := front
      have member : m ∈ pool.victims := by
        rw [queued]
        exact List.mem_cons_self
      have tracked := (rests.mem_victims.mp member).1
      have unpinned := (List.mem_filter.mp member).2
      obtain ⟨other, here⟩ := (rests.resident_or_orphan tracked).resolve_right (not_exists.mpr usable)
      obtain ⟨j, r, table, chosen⟩ := SieveReplacer_v3.Ready.exists_victim rests.ready (rests.clear owns empty) front
        (rests.evictable owns empty here (of_decide_eq_true unpinned))
      obtain ⟨pool', ran⟩ := inv.exists_evict (inv.able settled) owns empty full chosen
      exact ⟨j, pool', ran⟩
    · exact inv.fetchPageSync_free settled owns empty full

end Gbp.BufferPool
