import GraphBufferPool.Manager.Files
import GraphBufferPool.Lib.Reach

/-! # The partitioned mappings cover their files

Registration rounds bytes to pages and pages to pools, `Resize` bytes to pools and bytes to pages.
Both leave a slot for every page of the file in the pool the page belongs to, after any sequence of
opens and resizes, whatever the fetches in between store to the mappings.
-/

namespace Gbp

namespace BufferPoolManager

open Machine DiskManager

variable {R : Type} [Replacer R]

/-- A size the pages of which any number of pools can hold. -/
abbrev partitionedSize : ℕ := 2 ^ 42

/-- The states after `init` with a file below the size. -/
def FileStart (mgr : BufferPoolManager R) : Prop :=
  ∃ part poolSize memory, ∃ file : OsFile, file.1.length < partitionedSize ∧
    mgr = .init part poolSize memory file

/-- `OpenFile`, `Resize`, and a store to a mapping by a fetch or an eviction. -/
inductive FileStep (mgr : BufferPoolManager R) : BufferPoolManager R → Prop
  | openFile {mgr' : BufferPoolManager R} {fd : ℕ} (file : OsFile)
      (small : file.1.length < partitionedSize) (ran : mgr.openFile file = .ok (fd, mgr')) :
      FileStep mgr mgr'
  | resize {mgr' : BufferPoolManager R} (fd newSize : ℕ) (bound : newSize < 2 ^ 64)
      (small : newSize < partitionedSize) (valid : mgr.disk.validFD fd = true)
      (ran : mgr.resize fd newSize bound = .ok mgr') : FileStep mgr mgr'
  | store (i : ℕ) (page : Page) (word : MapWord) : FileStep mgr (mgr.setPool i
      { mgr.pool i with pageTable := (mgr.pool i).pageTable.setWord page word })

/-- The states of the runs of opens, resizes and stores to mappings. -/
abbrev FileRun (mgr : BufferPoolManager R) : Prop := Reach FileStart FileStep mgr

/-- The mappings cover the files, all of which are below the size. -/
structure Partitioned (mgr : BufferPoolManager R) : Prop extends Covers mgr where
  small : ∀ fd, mgr.disk.getFileSizeFast fd < partitionedSize

variable {mgr mgr' : BufferPoolManager R}

omit [Replacer R] in
theorem Opens.partitioned {file : OsFile} (opens : Opens mgr file mgr')
    (small : file.1.length < partitionedSize) (before : Partitioned mgr) : Partitioned mgr' := by
  refine ⟨opens.covers before.toCovers, fun fd => ?_⟩
  rw [opens.disk, openFile_size]
  split_ifs
  · exact small
  · exact before.small fd

theorem FileStart.partitioned (start : FileStart mgr) : Partitioned mgr := by
  obtain ⟨part, poolSize, memory, file, small, rfl⟩ := start
  refine (opens_init part poolSize memory file).partitioned small ⟨⟨?_, ?_, ?_⟩, ?_⟩
  · exact fun _ _ => rfl
  · exact fun _ _ => rfl
  · intro i _ fd valid
    cases valid
  · intro fd
    exact Nat.two_pow_pos 42

omit [Replacer R] in
theorem FileStep.partitioned (before : Partitioned mgr) (step : FileStep mgr mgr') : Partitioned mgr' := by
  cases step with
  | openFile file small ran =>
    obtain ⟨opened, returned, opens⟩ := exists_openFile mgr file
    cases returned.symm.trans ran
    exact opens.partitioned small before
  | resize fd newSize bound small valid ran =>
    obtain ⟨_, _, resizes⟩ := resize_returned ran
    refine ⟨resizes.covers valid before.toCovers, fun other => ?_⟩
    rw [resizes.disk, withSize_size newSize bound valid]
    split_ifs
    · exact small
    · exact before.small other
  | store i page word =>
    have field {α : Type} (get : PageTable → α)
        (same : get ((mgr.pool i).pageTable.setWord page word) = get (mgr.pools i).pageTable) (j : ℕ) :
        get ((mgr.setPool i { mgr.pool i with
          pageTable := (mgr.pool i).pageTable.setWord page word }).pools j).pageTable =
            get (mgr.pools j).pageTable := by
      by_cases here : j = i
      · subst here
        simp [setPool, same]
      · simp [setPool, Function.update_of_ne here]
    have shape := field PageTable.shape (PageTable.setWord_shape word)
    refine ⟨⟨?_, ?_, ?_⟩, before.small⟩
    · intro j inside
      exact (field PageTable.partitioner rfl j).trans (before.partitioner j inside)
    · intro j inside
      rw [shape]
      exact before.length j inside
    · intro j inside
      rw [shape]
      exact before.slots j inside

omit [Replacer R] in
/-- The mappings can be filled for files below the size, however few pools share them. -/
theorem pagesFit {size : ℕ} (small : size < partitionedSize) : PagesFit mgr size := by
  rw [PagesFit, ceil_le_iff (by decide), ceil_le_iff mgr.partitioner.numPartitions_pos]
  refine small.le.trans (le_trans ?_ (Nat.le_mul_of_pos_right _ mgr.partitioner.numPartitions_pos))
  decide

theorem partitioned (run : FileRun mgr) : Partitioned mgr :=
  run.invariant (fun _ start => start.partitioned) fun _ _ before step => step.partitioned before

end BufferPoolManager

namespace Partitioner

variable (part : Partitioner)

/-- `operator()`: the pool of a page and its index there. -/
def split (fpageId : ℕ) : ℕ × ℕ := (part.getPartitionId fpageId, part.getFPageIdInPartition fpageId)

/-- `GetFPageIdGlobal` on a pool and an index there. -/
def join (slot : ℕ × ℕ) : ℕ := part.getFPageIdGlobal slot.1 slot.2

/-- The pairs of a pool and an index in it that belong to a page id. -/
def slots : Set (ℕ × ℕ) := {slot | slot.1 < part.numPartitions ∧ part.join slot < fpageIdRange}

/-- Splitting and joining page ids are inverse to each other. -/
theorem split_invOn : Set.InvOn part.join part.split {p | p < fpageIdRange} part.slots := by
  refine ⟨fun p _ => part.getFPageIdGlobal_split p, ?_⟩
  rintro ⟨i, k⟩ ⟨inside, _⟩
  simp only [split, join, getFPageIdGlobal, getPartitionId_eq, getFPageIdInPartition_eq]
  rw [Nat.add_mul_mod_self_right, Nat.mod_eq_of_lt inside,
    Nat.add_mul_div_right _ _ part.numPartitions_pos, Nat.div_eq_of_lt inside, Nat.zero_add]

theorem split_bijOn : Set.BijOn part.split {p | p < fpageIdRange} part.slots := by
  refine part.split_invOn.bijOn (fun p small => ?_) fun slot inside => inside.2
  exact ⟨part.getPartitionId_lt p, (part.getFPageIdGlobal_split p).trans_lt small⟩

/-- The slots are all pairs of a pool id and a local index, each pool having the same number. -/
theorem slots_eq_prod (bound : part.log2NumPartitions ≤ 32) : part.slots =
    Set.Iio part.numPartitions ×ˢ Set.Iio (fpageIdRange / part.numPartitions) := by
  obtain ⟨rest, total⟩ := Nat.exists_eq_add_of_le bound
  have range : fpageIdRange = 2 ^ rest * part.numPartitions := by
    rw [fpageIdRange, total, numPartitions, Nat.pow_add, Nat.mul_comm]
  rw [range, Nat.mul_div_cancel _ part.numPartitions_pos]
  ext ⟨i, k⟩
  simp only [slots, join, getFPageIdGlobal, range, Set.mem_ofPred_eq, Set.mem_prod, Set.mem_Iio]
  refine and_congr_right fun inside => ?_
  constructor
  · intro below
    exact lt_of_mul_lt_mul_right ((Nat.le_add_left ..).trans_lt below) (Nat.zero_le _)
  · intro below
    have next := Nat.mul_le_mul_right part.numPartitions (Nat.succ_le_of_lt below)
    rw [Nat.succ_mul] at next
    omega

end Partitioner

namespace BufferPoolManager

open Machine DiskManager

variable {R : Type} [Replacer R] {mgr : BufferPoolManager R}

/-- What a `Resize` does to the mapping a pool keeps for a file. -/
structure KeepsEntries (old new : List MapWord) : Prop where
  kept : ∀ k < old.length, new[k]? = old[k]?
  added : ∀ k, old.length ≤ k → ∀ word, new[k]? = some word → word = .empty

/-- After any run of opens and resizes, the pool of a page has a slot for it; page ids and slots
correspond; and a `Resize` keeps the entries and adds empty ones. -/
theorem partitioned_mappings_cover (run : FileRun mgr) :
    (∀ fd fpageId, mgr.disk.validFD fd = true →
      fpageId < ceil (mgr.disk.getFileSizeFast fd) pageSize →
      ∃ mapping, (mgr.pools (mgr.partitioner.getPartitionId fpageId)).pageTable.mappings[fd]? =
          some (some mapping) ∧
        mgr.partitioner.getFPageIdInPartition fpageId < mapping.length) ∧
    Set.InvOn mgr.partitioner.join mgr.partitioner.split {p | p < fpageIdRange} mgr.partitioner.slots ∧
    Set.BijOn mgr.partitioner.split {p | p < fpageIdRange} mgr.partitioner.slots ∧
    (mgr.partitioner.log2NumPartitions ≤ 32 → mgr.partitioner.slots =
      Set.Iio mgr.partitioner.numPartitions ×ˢ Set.Iio (fpageIdRange / mgr.partitioner.numPartitions)) ∧
    ∀ fd newSize bound, mgr.disk.validFD fd = true → newSize < partitionedSize →
      ∃ mgr', mgr.resize fd newSize bound = .ok mgr' ∧ ∀ i < mgr.partitioner.numPartitions, ∃ old new,
        (mgr.pools i).pageTable.mappings[fd]? = some (some old) ∧
        (mgr'.pools i).pageTable.mappings = (mgr.pools i).pageTable.mappings.set fd (some new) ∧
        KeepsEntries old new := by
  have covers := partitioned run
  refine ⟨?_, mgr.partitioner.split_invOn, mgr.partitioner.split_bijOn,
    mgr.partitioner.slots_eq_prod, ?_⟩
  · intro fd fpageId valid inside
    have small : mgr.disk.getFileSizeFast fd ≤ maxFileSize :=
      (covers.small fd).le.trans (by unfold maxFileSize partitionedSize fpageIdRange pageSize; omega)
    obtain ⟨n, here, within⟩ := @Covers.covers_page _ _ covers.toCovers ⟨fd, fpageId⟩ valid small
      ((lt_ceil_iff (by decide)).mp inside)
    simp only [PageTable.shape, List.getElem?_map, Option.map_eq_some_iff] at here
    obtain ⟨_, here, mapping, rfl, rfl⟩ := here
    exact ⟨mapping, here, within⟩
  · intro fd newSize bound valid small
    obtain ⟨mgr', ran⟩ := exists_resize covers.toCovers bound valid (small.trans (by decide)) (pagesFit small)
    obtain ⟨_, _, resizes⟩ := resize_returned ran
    refine ⟨mgr', ran, fun i inside => ?_⟩
    obtain ⟨mapping, pageTable, here, _, mappings, same⟩ := resizes.pools i inside
    refine ⟨mapping, _, here, by rw [same]; exact mappings, fun k below => ?_, fun k past word there => ?_⟩
    · rw [PageTable.grownMapping_getElem?, if_pos below]
    · rw [PageTable.grownMapping_getElem?, if_neg (Nat.not_lt.mpr past)] at there
      split_ifs at there
      exact (Option.some.inj there).symm

/-- Two pools with a file of two pages. -/
def twoPools : BufferPoolManager SieveReplacer_v3 :=
  .init ⟨1⟩ 1 (fun _ _ _ => 0) ⟨⟨5000, fun _ => 0, fun _ _ => rfl⟩, by decide⟩

theorem partitioned_mappings_cover_twoPools : ∃ mgr',
    twoPools.resize 0 20000 (by decide) = .ok mgr' ∧ ∀ fpageId < 5, ∃ mapping,
      (mgr'.pools (mgr'.partitioner.getPartitionId fpageId)).pageTable.mappings[0]? =
          some (some mapping) ∧
        mgr'.partitioner.getFPageIdInPartition fpageId < mapping.length := by
  have start : FileRun twoPools := .init ⟨_, _, _, _, by decide, rfl⟩
  have valid : twoPools.disk.validFD 0 = true := rfl
  obtain ⟨mgr', ran⟩ := exists_resize (partitioned start).toCovers (show 20000 < 2 ^ 64 by decide) valid
    (by decide) (pagesFit (by decide))
  obtain ⟨_, _, resizes⟩ := resize_returned ran
  have run : FileRun mgr' := start.step (.resize 0 20000 (by decide) (by decide) valid ran)
  refine ⟨mgr', ran, fun fpageId below => ?_⟩
  apply (partitioned_mappings_cover run).1 0 fpageId
  · rw [resizes.disk, withSize_validFD]
    exact valid
  · rw [resizes.disk, withSize_size _ _ valid, if_pos rfl]
    exact below

end BufferPoolManager

end Gbp
