import GraphBufferPool.Lib.Polling
import GraphBufferPool.Pool.Content
import GraphBufferPool.Pool.FetchAsync
import GraphBufferPool.Pool.FetchSync2

/-! # The page fetches agree

`FetchPageSync1`, `FetchPageSync2` and `FetchPageAsyncInner` go through the states of `FetchPageSync` in several
calls. Called until they are done, they leave the pool as `FetchPageSync` does, but for what the asynchronous
reads and writes do behind the end of a file.
-/

namespace Gbp.BufferPool

open Function LawfulReplacer DiskManager Fuel

section machines

variable {R : Type} [Replacer R]

/-- The calls of `FetchPageSync1`. -/
def polls1 (page : Page) (_ : Unit) (s : Phase × BufferPool R) (fuel : ℕ) : Except Stop (Bool × Phase × BufferPool R) :=
  fetchPageSync1 page fuel s.1 s.2

/-- The calls of `FetchPageSync2`. -/
def polls2 (io : AsyncRead) (page : Page) (_ : Unit) (s : Phase × BufferPool R) (fuel : ℕ) :
    Except Stop (Bool × Phase × BufferPool R) :=
  fetchPageSync2 io page fuel s.1 s.2

/-- The calls of `FetchPageAsyncInner`; `ready` is whether its request has completed by then. -/
def pollsAsync (io : AsyncRead) (page : Page) (ready : Bool) (s : AsyncRequest × BufferPool R) (fuel : ℕ) :
    Except Stop (Bool × AsyncRequest × BufferPool R) :=
  fetchPageAsyncInner io page ready fuel s.1 s.2

variable {io : AsyncRead} {pool pool' taken : BufferPool R} {page : Page} {m : ℕ}

/-- A call that has ended after some rounds. -/
theorem returns_of_rounds {α : Type} {call : ℕ → Except Stop α} {a : α} (rounds : ℕ)
    (ran : ∀ fuel, call (fuel + rounds) = .ok a) : Returns call a :=
  (Returns.shift rounds ran).mpr .const

/-- The bytes of the memory and of the disk do not matter for `publish`. -/
theorem publish_congr (published : pool.publish page m = .ok pool') (memory : ℕ → Bytes) (disk : DiskManager) :
    BufferPool.publish { pool with memory := memory, disk := disk } page m =
      .ok { pool' with memory := memory, disk := disk } := by
  obtain ⟨⟨inserted, replacer⟩, placed, rest⟩ := bind_eq_ok.mp published
  obtain ⟨_, checked, rest⟩ := bind_eq_ok.mp rest
  obtain ⟨⟨created, pageTable⟩, mapped, rest⟩ := bind_eq_ok.mp rest
  obtain ⟨_, checked', rest⟩ := bind_eq_ok.mp rest
  cases rest
  simp only [publish, placed, checked, mapped, checked', ok_bind]
  rfl

/-- `publish` moves no byte. -/
theorem publish_bytes (published : pool.publish page m = .ok pool') :
    pool'.memory = pool.memory ∧ pool'.disk = pool.disk := by
  have same := Except.ok.inj (published.symm.trans (publish_congr published pool.memory pool.disk))
  exact ⟨(congrArg BufferPool.memory same).trans rfl, (congrArg BufferPool.disk same).trans rfl⟩

section hit

variable {locked : Bool} (began : pool.beginPhase page = .ok (locked, .finish m, pool'))
include began

theorem settles1_hit : Settles (fun _ => True) (polls1 page) (.begin, pool) (.finish m, pool') := by
  apply Settles.last
  intro _
  apply returns_of_rounds 2
  intro fuel
  simp only [polls1, fetchPageSync1, began, ok_bind]
  rfl

theorem settles2_hit : Settles (fun _ => True) (polls2 io page) (.begin, pool) (.finish m, pool') := by
  have ended : Settles (fun _ => True) (polls2 io page) (.finish m, pool') (.finish m, pool') :=
    .last fun _ => returns_of_rounds 1 fun _ => rfl
  cases locked with
  | false =>
    apply Settles.next _ ended
    intro _
    apply returns_of_rounds 2
    intro fuel
    simp only [polls2, fetchPageSync2, began, ok_bind]
    rfl
  | true =>
    apply Settles.last
    intro _
    apply returns_of_rounds 2
    intro fuel
    simp only [polls2, fetchPageSync2, began, ok_bind]
    rfl

theorem settlesAsync_hit (context : ContextState) :
    Settles (· = true) (pollsAsync io page) (⟨.begin, context⟩, pool) (⟨.finish m, context⟩, pool') := by
  have ended : Settles (· = true) (pollsAsync io page) (⟨.finish m, context⟩, pool') (⟨.finish m, context⟩, pool') :=
    .last fun _ => returns_of_rounds 1 fun _ => by simp only [pollsAsync, fetchPageAsyncInner]; rfl
  cases locked with
  | false =>
    apply Settles.next _ ended
    intro _
    apply returns_of_rounds 2
    intro fuel
    simp only [pollsAsync, fetchPageAsyncInner, began, ok_bind]
    rfl
  | true =>
    apply Settles.last
    intro _
    apply returns_of_rounds 2
    intro fuel
    simp only [pollsAsync, fetchPageAsyncInner, began, ok_bind]
    rfl

end hit

section load

variable (empty : pool.pageTable.word? page = some .empty) (took : (pool.lockPage page).takeFrame = .ok (m, taken))
include empty took

theorem settles1_load {read : BufferPool R} (filled : taken.readPage page m = .ok read)
    (published : read.publish page m = .ok pool') :
    Settles (fun _ => True) (polls1 page) (.begin, pool) (.finish m, pool') := by
  have loads : Settles (fun _ => True) (polls1 page) (.loading m, taken) (.finish m, pool') := by
    apply Settles.last
    intro _
    apply returns_of_rounds 1
    intro fuel
    simp only [polls1, fetchPageSync1, filled, published, ok_bind]
    rfl
  apply Settles.next _ loads
  intro _
  apply returns_of_rounds 3
  intro fuel
  rcases takeFrame_cases took with picked | ⟨chosen, picked, evicted⟩
  · simp only [polls1, fetchPageSync1, beginPhase_empty empty, picked, ok_bind]
    rfl
  · simp only [polls1, fetchPageSync1, beginPhase_empty empty, picked, evicted, ok_bind]
    rfl

theorem settles2_load {read : BufferPool R} (filled : taken.awaitRead io page m = .ok read)
    (published : read.publish page m = .ok pool') :
    Settles (fun _ => True) (polls2 io page) (.begin, pool) (.finish m, pool') := by
  have finishes : Settles (fun _ => True) (polls2 io page) (.loadingFinish m, taken) (.finish m, pool') := by
    apply Settles.last
    intro _
    apply returns_of_rounds 1
    intro fuel
    simp only [polls2, fetchPageSync2, filled, published, ok_bind]
    rfl
  have loads : Settles (fun _ => True) (polls2 io page) (.loading m, taken) (.finish m, pool') :=
    .next (fun _ => returns_of_rounds 1 fun _ => rfl) finishes
  apply Settles.next _ loads
  intro _
  apply returns_of_rounds 3
  intro fuel
  rcases takeFrame_cases took with picked | ⟨chosen, picked, evicted⟩
  · simp only [polls2, fetchPageSync2, beginPhase_empty empty, picked, ok_bind]
    rfl
  · simp only [polls2, fetchPageSync2, beginPhase_empty empty, picked, evicted, ok_bind]
    rfl

end load

/-- The last state of `FetchPageAsyncInner` waits for the read and publishes the frame. -/
theorem settlesAsync_loadingFinish {read : BufferPool R} (filled : taken.awaitRead io page m = .ok read)
    (published : read.publish page m = .ok pool') : Settles (· = true) (pollsAsync io page)
      (⟨.loadingFinish m, .poll⟩, taken) (⟨.finish m, .finish⟩, pool') := by
  apply Settles.of_calls
  intro ready
  cases ready with
  | false =>
    apply Settling.wait (by simp)
    apply returns_of_rounds 1
    intro fuel
    simp only [pollsAsync, fetchPageAsyncInner]
    rfl
  | true =>
    apply Settling.last
    apply returns_of_rounds 2
    intro fuel
    simp only [pollsAsync, fetchPageAsyncInner, ContextState.processFunc, if_true, filled, published, ok_bind]
    rfl

/-- The state before it waits for the write-back of the victim. -/
theorem settlesAsync_evictingFinish {chosen written final : BufferPool R} (wrote : chosen.awaitWrite m = .ok written)
    (deleted : written.deleteVictim m = .ok taken) (rest : Settles (· = true) (pollsAsync io page)
      (⟨.loadingFinish m, .poll⟩, taken) (⟨.finish m, .finish⟩, final)) : Settles (· = true) (pollsAsync io page)
      (⟨.evictingFinish m, .poll⟩, chosen) (⟨.finish m, .finish⟩, final) := by
  apply Settles.of_calls
  intro ready
  cases ready with
  | false =>
    apply Settling.wait (by simp)
    apply returns_of_rounds 1
    intro fuel
    simp only [pollsAsync, fetchPageAsyncInner]
    rfl
  | true =>
    apply Settling.next _ rest
    apply returns_of_rounds 2
    intro fuel
    simp only [pollsAsync, fetchPageAsyncInner, ContextState.processFunc, if_true, wrote, deleted, ok_bind]
    rfl

omit [Replacer R] in
/-- The deletion of a clean victim. -/
theorem evictingPhase_clean (clean : (pool.pageTable.ptes m).dirty = false) :
    pool.evictingPhase m = pool.deleteVictim m := by
  simp only [evictingPhase, deleteVictim, clean, Bool.false_eq_true, if_false, pure_bind]

omit [Replacer R] in
theorem deleteVictim_disk (deleted : pool.deleteVictim m = .ok taken) : taken.disk = pool.disk := by
  obtain ⟨_, _, rest⟩ := bind_eq_ok.mp deleted
  obtain ⟨_, _, rest⟩ := bind_eq_ok.mp rest
  cases rest
  rfl

theorem initingPhase_keeps_disk {phase : Phase} (picked : pool.initingPhase = .ok (phase, taken)) : taken.disk = pool.disk := by
  unfold initingPhase at picked
  split at picked
  · cases picked
    rfl
  · obtain ⟨⟨victim, _, _⟩, _, picked⟩ := bind_eq_ok.mp picked
    cases victim <;> cases picked
    rfl

/-- `FetchPageAsyncInner` takes the frame that the other machines take. Its write-back may leave the file longer. -/
theorem exists_settlesAsync_load (long : pool.disk.Long) (empty : pool.pageTable.word? page = some .empty)
    (took : (pool.lockPage page).takeFrame = .ok (m, taken)) (context : ContextState) :
    taken.disk.Long ∧ ∃ disk', SameInFiles taken.disk disk' ∧ disk'.Long ∧ ∀ read pool',
      awaitRead io { taken with disk := disk' } page m = .ok read → read.publish page m = .ok pool' →
        Settles (· = true) (pollsAsync io page) (⟨.begin, context⟩, pool) (⟨.finish m, .finish⟩, pool') := by
  rcases takeFrame_cases took with picked | ⟨chosen, picked, evicted⟩
  · have kept : taken.disk = pool.disk := (initingPhase_keeps_disk picked).trans rfl
    rw [← kept] at long
    refine ⟨long, taken.disk, .refl _, long, fun read pool' filled published => ?_⟩
    apply Settles.next _ (settlesAsync_loadingFinish filled published)
    intro ready
    apply returns_of_rounds 3
    intro fuel
    simp only [pollsAsync, fetchPageAsyncInner, beginPhase_empty empty, picked, ok_bind]
    rfl
  · have kept : chosen.disk = pool.disk := (initingPhase_keeps_disk picked).trans rfl
    rw [← kept] at long
    cases dirty : (chosen.pageTable.ptes m).dirty with
    | false =>
      rw [evictingPhase_clean dirty] at evicted
      have same := deleteVictim_disk evicted
      rw [← same] at long
      refine ⟨long, taken.disk, .refl _, long, fun read pool' filled published => ?_⟩
      apply Settles.next _ (settlesAsync_loadingFinish filled published)
      intro ready
      apply returns_of_rounds 4
      intro fuel
      simp only [pollsAsync, fetchPageAsyncInner, beginPhase_empty empty, picked, dirty, evicted, ok_bind]
      rfl
    | true =>
      simp only [evictingPhase, dirty, if_true] at evicted
      obtain ⟨disk, written, rest⟩ := bind_eq_ok.mp evicted
      obtain ⟨⟨deleted, pageTable⟩, cleared, rest⟩ := bind_eq_ok.mp rest
      obtain ⟨_, checked, rest⟩ := bind_eq_ok.mp rest
      cases rest
      obtain ⟨longer, async, wrote, same, long'⟩ := writeAsync_of_write long written
      refine ⟨longer, async, same, long', fun read pool' filled published => ?_⟩
      have write : chosen.awaitWrite m = .ok { chosen with disk := async } := by
        simp only [awaitWrite, wrote, ok_bind]
        rfl
      have delete : deleteVictim { chosen with disk := async } m =
          .ok { chosen with pageTable := pageTable, disk := async } := by
        simp only [deleteVictim, cleared, checked, ok_bind]
        rfl
      have finishes := settlesAsync_evictingFinish write delete (settlesAsync_loadingFinish filled published)
      apply Settles.next _ finishes
      intro ready
      apply returns_of_rounds 3
      intro fuel
      simp only [pollsAsync, fetchPageAsyncInner, beginPhase_empty empty, picked, dirty, ok_bind]
      rfl

end machines

/-- What an asynchronous read delivers: the bytes of the file. It may leave the frame as it was behind the end. -/
def Delivers (io : AsyncRead) : Prop :=
  ∀ file offset data i, i < pageSize → offset + i < file.length → io file offset data i = file.byte (offset + i)

variable {R : Type} [Replacer R] {io : AsyncRead} {pool pool' taken : BufferPool R} {page : Page} {m : ℕ}

/-- The bytes of the frame up to the end of the file. -/
def InFileBytes (pool : BufferPool R) (page : Page) (m : ℕ) (bytes : Bytes) : Prop :=
  ∀ i < pageSize, page.position i < pool.disk.getFileSizeFast page.fd → bytes i = pool.memory m i

/-- The machines end where `FetchPageSync` does, with frame `m` and `pool'`. -/
structure MachinesAgree (io : AsyncRead) (pool : BufferPool R) (page : Page) (m : ℕ) (pool' : BufferPool R) : Prop where
  sync1 : Settles (fun _ => True) (polls1 page) (.begin, pool) (.finish m, pool')
  sync2 : ∃ bytes, InFileBytes pool' page m bytes ∧
    Settles (fun _ => True) (polls2 io page) (.begin, pool) (.finish m, pool'.withBytes m bytes)
  async : ∀ context, ∃ context' bytes disk, InFileBytes pool' page m bytes ∧ SameInFiles pool'.disk disk ∧
    Settles (· = true) (pollsAsync io page) (⟨.begin, context⟩, pool)
      (⟨.finish m, context'⟩, { pool'.withBytes m bytes with disk := disk })

omit [Replacer R] in
/-- An asynchronous read fills the frame of the page. -/
theorem awaitRead_delivers (delivers : Delivers io) (valid : pool.disk.validFD page.fd = true) (long : pool.disk.Long) :
    ∃ bytes, pool.awaitRead io page m = .ok (pool.withBytes m bytes) ∧
      ∀ i < pageSize, page.position i < pool.disk.getFileSizeFast page.fd →
        bytes i = pool.disk.byte page.fd (page.position i) := by
  obtain ⟨entry, here, read⟩ := awaitRead_ok valid
  refine ⟨_, read, fun i small inside => ?_⟩
  have file : pool.disk.file page.fd = entry.file := by simp [DiskManager.file, here]
  have enough := inside.trans_le (long page.fd)
  rw [file] at enough
  rw [DiskManager.byte, file]
  exact delivers entry.file _ _ i small enough

variable [LawfulReplacer R] {place : ℕ → Place} {pins : List (Page × ℕ)}

/-- Wherever `FetchPageSync` returns, the machines end in the same state. -/
theorem Inv.machines_agree (inv : Inv pool place pins) (able : Able pool place) (owns : pool.Owns page)
    (long : pool.disk.Long) (delivers : Delivers io)
    (returned : Returns (fun fuel => fetchPageSync fuel page pool) (m, pool')) :
    MachinesAgree io pool page m pool' := by
  rcases inv.word?_cases owns with ⟨k, here⟩ | locks | empty
  · obtain ⟨r, _, pinned, locked, began⟩ := inv.exists_pin here
    have hit : Returns (fun fuel => fetchPageSync fuel page pool) (k, pool.withPin k r) :=
      Returns.congr (fun fuel => by rw [fetchPageSync, pinned]; rfl) .const
    cases returned.unique hit
    have unchanged : (pool.withPin m r).withBytes m (pool.memory m) = pool.withPin m r := by
      simp [BufferPool.withBytes, withPin]
    exact {
      sync1 := settles1_hit began
      sync2 := ⟨pool.memory m, fun _ _ _ => rfl, by rw [unchanged]; exact settles2_hit began⟩
      async := fun context => ⟨context, pool.memory m, pool.disk, fun _ _ _ => rfl, .refl _, by
        rw [unchanged]
        exact settlesAsync_hit began context⟩ }
  · exact absurd returned (Returns.not_of_error (fetchPageSync_busy ((inv.locked page owns).mpr locks)) _)
  · have loads : pool.loadPage page = .ok (m, pool') :=
      ((Returns.shift 4 (fetchPageSync_empty empty)).mp returned).of_const
    obtain ⟨⟨k, taken⟩, took, rest⟩ := bind_eq_ok.mp loads
    obtain ⟨read, filled, rest⟩ := bind_eq_ok.mp rest
    obtain ⟨published, done, result⟩ := bind_eq_ok.mp rest
    cases result
    have taken_valid (other : DiskManager) (same : SameHandles taken.disk other) : other.validFD page.fd = true :=
      (same.valid _).trans (((inv.takeFrame_sound able owns empty took).handles.valid _).trans owns.valid)
    obtain ⟨bytes, readOk, same⟩ := DiskManager.exists_read (taken_valid _ (.refl _)) (page.fpageId * pageSize)
      (taken.memory m)
    have read_eq : read = taken.withBytes m bytes := by
      simp only [readPage, readOk, ok_bind] at filled
      cases filled
      rfl
    subst read_eq
    obtain ⟨memory, disk⟩ := publish_bytes done
    change pool'.memory = update taken.memory m bytes at memory
    change pool'.disk = taken.disk at disk
    have stored : pool'.memory m = bytes := by rw [memory, update_self]
    -- the frame after another read, with another disk
    have other (bytes' : Bytes) (disk' : DiskManager) :
        BufferPool.publish (BufferPool.withBytes { taken with disk := disk' } m bytes') page m =
          .ok { pool'.withBytes m bytes' with disk := disk' } := by
      have again := publish_congr done (update taken.memory m bytes') disk'
      rw [BufferPool.withBytes, BufferPool.withBytes, memory, update_idem]
      exact again
    have inFile (bytes' : Bytes) (disk' : DiskManager) (agree : SameInFiles taken.disk disk')
        (delivered : ∀ i < pageSize, page.position i < disk'.getFileSizeFast page.fd →
          bytes' i = disk'.byte page.fd (page.position i)) : InFileBytes pool' page m bytes' := by
      intro i small inside
      rw [disk] at inside
      rw [delivered i small (by rwa [agree.handles.size]), agree.byte _ _ inside, stored]
      exact (same i small).symm
    exact {
      sync1 := settles1_load empty took filled done
      sync2 := by
        have long' := (@exists_settlesAsync_load _ _ io _ _ _ _ long empty took .commit).1
        obtain ⟨bytes', awaited, delivered⟩ := awaitRead_delivers delivers (taken_valid _ (.refl _)) long'
        refine ⟨bytes', inFile bytes' taken.disk (.refl _) delivered, settles2_load empty took awaited ?_⟩
        have unchanged : { pool'.withBytes m bytes' with disk := taken.disk } = pool'.withBytes m bytes' := by
          rw [← disk]
          rfl
        exact (other bytes' taken.disk).trans (congrArg Except.ok unchanged)
      async := by
        intro context
        obtain ⟨_, disk', agree, long', settles⟩ := @exists_settlesAsync_load _ _ io _ _ _ _ long empty took context
        have valid := taken_valid _ agree.handles
        obtain ⟨bytes', awaited, delivered⟩ :=
          @awaitRead_delivers _ io { taken with disk := disk' } page m delivers valid long'
        refine ⟨.finish, bytes', disk', inFile bytes' disk' agree delivered, ?_, settles _ _ awaited (other bytes' disk')⟩
        rwa [disk] }

end Gbp.BufferPool
