import GraphBufferPool.Manager.Programs
import GraphBufferPool.Pool.ReadCache

/-! # Reading a file again and again

A program reads the pages of a file one after another, and holds none of them. Each pool reads as a cache of the pages
that fall to it; so the pages can be read in any order, as often as one likes, exactly if the caches have the slots for
them.
-/

namespace Gbp.BufferPoolManager

open Function LawfulReplacer BufferPool DiskManager Fuel Refill Relation

/-- A page of the file is fetched and let go of. -/
def FileRead {R : Type} [Replacer R] (fd k : ℕ) (mgr mgr' : BufferPoolManager R) : Prop :=
  ∃ m mid, Returns (fun fuel => mgr.fetchPageSync fuel ⟨fd, k⟩) (m, mid) ∧ mgr' = mid.decRefCount ⟨fd, k⟩ m false

/-- The pages of the file that fall to a pool. -/
def pagesIn {R : Type} (mgr : BufferPoolManager R) (fd i : ℕ) : Finset ℕ :=
  {k ∈ Finset.range (mgr.fpageNum fd) | mgr.poolOf ⟨fd, k⟩ = i}

variable {K : ℕ → ℕ → Prop} {F : ℕ → Prop} {content : Content} {first mgr mgr' : BufferPoolManager SieveReplacer_v3}
  {place₀ place place' : ℕ → ℕ → Place} {pins : ℕ → List (Page × ℕ)} {fd i k m : ℕ}

theorem mem_pagesIn {R : Type} {mgr : BufferPoolManager R} :
    k ∈ mgr.pagesIn fd i ↔ k < mgr.fpageNum fd ∧ mgr.poolOf ⟨fd, k⟩ = i := by
  simp [pagesIn]

/-- The cache of the pages of a file that a pool of the manager is. -/
def Caches.cache (caches : Caches K F content mgr place pins) (inside : i < mgr.partitioner.numPartitions) (fd : ℕ) :
    Cache ℕ ℕ := (caches.rests inside).cache fd

/-- What a read of a page of the file does to the caches. -/
theorem Caches.fileRead (caches : Caches K F content mgr place pins) (inFile : InFile mgr ⟨fd, k⟩)
    (room : ∀ i < mgr.partitioner.numPartitions, ∀ m, Room (pins i) m)
    (unheld : ∀ i < mgr.partitioner.numPartitions, ∀ pin ∈ pins i, pin.1.fd ≠ fd) (read : FileRead fd k mgr mgr') :
    ∃ (place' : ℕ → ℕ → Place) (caches' : Caches K F content mgr' place' pins) (shape : SameShape mgr mgr'),
      (∀ i m, Unorphaned (place' i) m ↔ Unorphaned (place i) m) ∧ ∀ i (inside : i < mgr.partitioner.numPartitions),
        if i = mgr.poolOf ⟨fd, k⟩ then
          Read (Unorphaned (place i)) k (caches.cache inside fd) (caches'.cache (shape.partitioner ▸ inside) fd)
        else caches'.cache (shape.partitioner ▸ inside) fd = caches.cache inside fd := by
  obtain ⟨m, mid, ran, rfl⟩ := read
  obtain ⟨pool', place', rfl, shape, serves, fetched, held⟩ := caches.fetch inFile (room _ (mgr.poolOf_lt _)) ran
  have same : (mgr.setPool (mgr.poolOf ⟨fd, k⟩) pool').poolOf ⟨fd, k⟩ = mgr.poolOf ⟨fd, k⟩ := shape.poolOf _
  have pin : ((⟨fd, k⟩ : Page), m) ∈ update pins (mgr.poolOf ⟨fd, k⟩)
      ((⟨fd, k⟩, m) :: pins (mgr.poolOf ⟨fd, k⟩)) ((mgr.setPool (mgr.poolOf ⟨fd, k⟩) pool').poolOf ⟨fd, k⟩) := by
    rw [same, update_self]
    exact List.mem_cons_self
  have caches' := held.release pin false
  rw [same, update_self, update_idem, List.erase_cons_head, update_eq_self] at caches'
  refine ⟨_, caches', shape.trans ⟨rfl, rfl, .refl _⟩, fun i m => ?_, fun i inside => ?_⟩
  · by_cases mine : i = mgr.poolOf ⟨fd, k⟩
    · subst mine
      rw [update_self]
      exact fetched.usable m
    · rw [update_of_ne mine]
  · have pools : ((mgr.setPool (mgr.poolOf ⟨fd, k⟩) pool').decRefCount ⟨fd, k⟩ m false).pool i =
        if i = mgr.poolOf ⟨fd, k⟩ then pool'.decRefCount m false else { mgr.pool i with disk := pool'.disk } := by
      rw [BufferPoolManager.decRefCount, same, setPool_pool_self]
      split_ifs with mine
      · subst mine
        rw [setPool_pool_self]
      · rw [setPool_pool_of_ne _ mine, setPool_pool_of_ne _ mine]
        rfl
    split_ifs at pools ⊢ with mine
    · subst mine
      exact (caches.rests inside).read (caches.sound.owns inFile) (unheld _ inside) serves fetched pools
        (update_self ..) _
    · exact Rests.cache_congr _ _ (by rw [pools]) (by rw [pools]) (update_of_ne mine ..)

/-- A pool of the manager is seen as a cache, between reads of a file. -/
def Seen (K : ℕ → ℕ → Prop) (F : ℕ → Prop) (content : Content) (first : BufferPoolManager SieveReplacer_v3)
    (place₀ : ℕ → ℕ → Place) (pins : ℕ → List (Page × ℕ)) (fd i : ℕ) (mgr : BufferPoolManager SieveReplacer_v3)
    (c : Cache ℕ ℕ) : Prop :=
  ∃ (place : ℕ → ℕ → Place) (caches : Caches K F content mgr place pins) (inside : i < mgr.partitioner.numPartitions),
    SameShape first mgr ∧ (∀ j m, Unorphaned (place j) m ↔ Unorphaned (place₀ j) m) ∧ caches.cache inside fd = c

/-- The pool of the page reads as its cache, the other caches stay as they are. -/
theorem Seen.read {c : Cache ℕ ℕ} (seen : Seen K F content first place₀ pins fd i mgr c) (range : InRange first fd 0 0)
    (room : ∀ i < first.partitioner.numPartitions, ∀ m, Room (pins i) m)
    (unheld : ∀ i < first.partitioner.numPartitions, ∀ pin ∈ pins i, pin.1.fd ≠ fd) (below : k < first.fpageNum fd)
    (read : FileRead fd k mgr mgr') : ∃ c', Seen K F content first place₀ pins fd i mgr' c' ∧
      if k ∈ first.pagesIn fd i then Read (Unorphaned (place₀ i)) k c c' else c' = c := by
  obtain ⟨place, caches, inside, shape, usable, rfl⟩ := seen
  obtain ⟨place', caches', shape', usable', reads⟩ := caches.fileRead (shape.inFile (range.inFile below))
    (shape.partitioner ▸ room) (shape.partitioner ▸ unheld) read
  refine ⟨_, ⟨place', caches', shape'.partitioner ▸ inside, shape.trans shape',
    fun j m => (usable' j m).trans (usable j m), rfl⟩, ?_⟩
  have here := reads i inside
  rw [shape.poolOf] at here
  by_cases mine : i = first.poolOf ⟨fd, k⟩
  · rw [if_pos mine] at here
    rw [if_pos (mem_pagesIn.mpr ⟨below, mine.symm⟩)]
    exact here.mono fun m => (usable i m).mp
  · rw [if_neg mine] at here
    rw [if_neg fun member => mine (mem_pagesIn.mp member).2.symm]
    exact here

/-- Reads change no byte. -/
theorem Caches.rereads (caches : Caches K F content first place₀ pins) (range : InRange first fd 0 0)
    (room : ∀ i < first.partitioner.numPartitions, ∀ m, Room (pins i) m)
    (unheld : ∀ i < first.partitioner.numPartitions, ∀ pin ∈ pins i, pin.1.fd ≠ fd)
    (reads : ReflTransGen (AnyRead (Finset.range (first.fpageNum fd)) (FileRead fd)) first mgr) :
    SameShape first mgr ∧ ∃ place, Caches K F content mgr place pins := by
  induction reads with
  | refl => exact ⟨.refl _, place₀, caches⟩
  | tail _ read ih =>
    obtain ⟨shape, place, before⟩ := ih
    obtain ⟨k, member, read⟩ := read
    obtain ⟨place', caches', shape', _⟩ := before.fileRead (shape.inFile (range.inFile (Finset.mem_range.mp member)))
      (shape.partitioner ▸ room) (shape.partitioner ▸ unheld) read
    exact ⟨shape.trans shape', place', caches'⟩

/-- A page that its cache can read can be read. -/
theorem Seen.exists_fileRead {c : Cache ℕ ℕ} (seen : Seen K F content first place₀ pins fd i mgr c)
    (range : InRange first fd 0 0) (wanted : k ∈ first.pagesIn fd i) (can : CanRead (Unorphaned (place₀ i)) k c) :
    ∃ mgr', FileRead fd k mgr mgr' := by
  obtain ⟨place, caches, inside, shape, usable, rfl⟩ := seen
  obtain ⟨below, mine⟩ := mem_pagesIn.mp wanted
  rw [← shape.poolOf] at mine
  subst mine
  have owns := caches.sound.owns (shape.inFile (range.inFile below))
  obtain ⟨m, pool', ran⟩ := (caches.rests inside).exists_fetch owns (can.mono fun m => (usable _ m).mpr)
  exact ⟨_, m, _, mgr.fetchPageSync_pool _ ran, rfl⟩

/-- The pages of a file that is not cached yet can be read in any order, as often as one likes, exactly if the pool of
each page has the slots for the pages that fall to it. -/
theorem Caches.alwaysServes_iff (caches : Caches K F content first place₀ pins) (range : InRange first fd 0 0)
    (room : ∀ i < first.partitioner.numPartitions, ∀ m, Room (pins i) m)
    (unheld : ∀ i < first.partitioner.numPartitions, ∀ pin ∈ pins i, pin.1.fd ≠ fd)
    (bare : ∀ i < first.partitioner.numPartitions, ∀ m page, place₀ i m = .resident page → page.fd ≠ fd) :
    AlwaysServes (Finset.range (first.fpageNum fd)) (FileRead fd) first ↔ ∀ k < first.fpageNum fd,
      Fits (Unorphaned (place₀ (first.poolOf ⟨fd, k⟩))) (first.pagesIn fd (first.poolOf ⟨fd, k⟩))
        (caches.cache (first.poolOf_lt ⟨fd, k⟩) fd) := by
  have empty {i : ℕ} (inside : i < first.partitioner.numPartitions) (m : ℕ) :
      (caches.cache inside fd).page m = none := by
    by_contra some
    obtain ⟨k, here⟩ := Option.ne_none_iff_exists'.mp some
    exact bare i inside m _ (Place.pageOf_eq_some.mp here) rfl
  have spare {i : ℕ} (inside : i < first.partitioner.numPartitions) :
      ∀ m ∈ (caches.cache inside fd).free, Unorphaned (place₀ i) m := by
    intro m free page orphan
    cases (((caches.rests inside).inv.free m).mp free).symm.trans orphan
  constructor
  · intro always k below
    have wanted : k ∈ first.pagesIn fd (first.poolOf ⟨fd, k⟩) := mem_pagesIn.mpr ⟨below, rfl⟩
    have inside := first.poolOf_lt ⟨fd, k⟩
    have simulates : Simulates (Unorphaned (place₀ (first.poolOf ⟨fd, k⟩))) (first.pagesIn fd (first.poolOf ⟨fd, k⟩))
        (FileRead fd) (Seen K F content first place₀ pins fd (first.poolOf ⟨fd, k⟩)) := by
      intro k' wanted' mgr mgr' c seen read
      obtain ⟨c', seen', reads⟩ := seen.read range room unheld (mem_pagesIn.mp wanted').1 read
      rw [if_pos wanted'] at reads
      exact ⟨c', seen', reads⟩
    exact fits_of_alwaysServes simulates (always.subset (Finset.filter_subset ..))
      ⟨place₀, caches, inside, .refl _, fun _ _ => Iff.rfl, rfl⟩ (empty inside) (spare inside) wanted
  · intro fits mgr reads
    have filled : ∀ i (inside : i < first.partitioner.numPartitions), ∃ t c,
        Seen K F content first place₀ pins fd i mgr c ∧
          Filled (Unorphaned (place₀ i)) (first.pagesIn fd i) (caches.cache inside fd) t c := by
      induction reads with
      | refl =>
        exact fun i inside => ⟨0, _, ⟨place₀, caches, inside, .refl _, fun _ _ => Iff.rfl, rfl⟩,
          .initial (empty inside) (spare inside)⟩
      | tail _ read ih =>
        obtain ⟨k, member, read⟩ := read
        intro i inside
        obtain ⟨t, c, seen, filled⟩ := ih i inside
        obtain ⟨c', seen', reads⟩ := seen.read range room unheld (Finset.mem_range.mp member) read
        split_ifs at reads with wanted
        · obtain ⟨t', filled'⟩ := filled.read wanted reads
          exact ⟨t', c', seen', filled'⟩
        · exact ⟨t, c', seen', reads ▸ filled⟩
    intro k member
    have below := Finset.mem_range.mp member
    have wanted : k ∈ first.pagesIn fd (first.poolOf ⟨fd, k⟩) := mem_pagesIn.mpr ⟨below, rfl⟩
    obtain ⟨t, c, seen, filled⟩ := filled _ (first.poolOf_lt ⟨fd, k⟩)
    exact seen.exists_fileRead range wanted (filled.canRead (fits k below) wanted)

end Gbp.BufferPoolManager
