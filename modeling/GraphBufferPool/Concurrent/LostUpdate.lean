import GraphBufferPool.Concurrent.Safety

/-! # No lost update

Stored bytes stay in the frame of their page until they are on disk: a resident frame that differs
from the disk is dirty or has a writer on it, and an eviction leaves the disk up to date.
-/

namespace Gbp.Concurrent

open Function Protocol

variable {T : Type} {cfg : PoolConfig} {s : State T}

/-- `page` is resident in frame `m`: mapped to it, or kept BUSY by a thread that will map it back. -/
def State.Resident (cfg : PoolConfig) (s : State T) (page : Page) (m : ℕ) : Prop :=
  cfg.Valid page ∧ (s.mapping cfg page = .frame m ∨ ∃ t, s.Keeps t page (.frame m))

/-- A thread that changed `page` in frame `m` and still holds its pin. -/
def State.Writer (s : State T) (page : Page) (m : ℕ) : Prop :=
  ∃ t, (s.pc t).pin? = some (page, m) ∧ (s.pc t).wrote = true

/-- No write is lost. -/
structure State.Preserved (cfg : PoolConfig) (s : State T) : Prop where
  modified : ∀ page m, s.Resident cfg page m →
    (∃ i, cfg.InFile page i ∧ s.memory m i ≠ s.viewDisk page i) →
      (s.ptes m).dirty = true ∨ s.Writer page m
  /-- The frame of a resident page holds every byte stored so far. -/
  current : ∀ page m, s.Resident cfg page m → ∀ i, cfg.InFile page i →
    s.memory m i = s.content page i
  /-- An eviction empties the mapping of its victim when the disk holds every byte stored so far. -/
  evicted : ∀ t r m victim, s.pc t = .writeCas (.deleted r m victim) → ∀ i, cfg.InFile victim i →
    s.viewDisk victim i = s.content victim i
  /-- So does the disk while a page is not resident. -/
  saved : ∀ page, cfg.Valid page → s.mapping cfg page = .empty → ∀ i, cfg.InFile page i →
    s.viewDisk page i = s.content page i
  /-- A load finds every byte stored before it. -/
  loaded : ∀ t r m, s.pc t = .loadStore r m → ∀ i, cfg.InFile r.page i →
    s.memory m i = s.content r.page i

theorem Pc.pin?_of_wrote {pc : Pc} {page : Page} {m : ℕ} (held : pc.ref = some (m, some page))
    (wrote : pc.wrote = true) : pc.pin? = some (page, m) := by
  cases pc <;> simp_all [Pc.ref, Pc.wrote, Pc.pin?]

variable [DecidableEq T] [Fintype T]

/-- No write is lost, in every interleaving. -/
theorem no_lost_update (handles : Handles cfg) (reachable : Reachable cfg s) :
    s.Preserved cfg := by
  obtain ⟨place, inv, coh⟩ := (reachable.sound handles).safe
  have placed {page : Page} {m : ℕ} (resident : s.Resident cfg page m) :
      (place m).page? = some page := by
    rcases resident with ⟨valid, mapped | ⟨t, keeps⟩⟩
    · rw [(inv.mapped page m).mp ((viewMap_of_valid valid).trans mapped)]
      rfl
    · rw [(inv.lockedFrame t page m).mp keeps]
      rfl
  constructor
  · rintro page m resident ⟨i, inside, differs⟩
    rcases coh.modified m page (placed resident) with dirty | ⟨t, held, wrote⟩ | saved
    · exact Or.inl dirty
    · exact Or.inr ⟨t, Pc.pin?_of_wrote held wrote, wrote⟩
    · exact absurd ((coh.resident m page (placed resident) i inside).trans (saved i inside).symm)
        differs
  · exact fun page m resident => coh.resident m page (placed resident)
  · intro t r m victim here
    exact (coh.evicting t m victim (congrArg Pc.owned here)).2 (Or.inr (congrArg Pc.saved here))
  · intro page valid empty
    have unmapped : (view cfg s).map page = .empty := (viewMap_of_valid valid).trans empty
    refine coh.onDisk page (fun m resident => ?_) fun t m owner => ?_
    · rcases Place.page?_eq_some.mp resident with mapped | ⟨t, locked⟩
      · rw [(inv.mapped page m).mpr mapped] at unmapped
        cases unmapped
      · rw [inv.table.marked_of_mem ((inv.lockedFrame t page m).mpr locked)] at unmapped
        cases unmapped
    · rw [inv.table.marked_of_mem (inv.evicting t m page owner).2.2] at unmapped
      cases unmapped
  · intro t r m here
    obtain ⟨m', page, rest, owner, locks, same⟩ := coh.filled t (congrArg Pc.filled here)
    have owned : (view cfg s).owned t = some (m, none) := congrArg Pc.owned here
    have held : (view cfg s).locks t = [(r.page, .empty)] := congrArg Pc.locks here
    rw [owned] at owner
    rw [held] at locks
    cases owner
    cases locks
    exact same

/-- A thread has stored a byte, another one has written the page back to evict it, and the first one asks for the page
again. -/
theorem no_lost_update_writtenBack : ∃ s : State Bool, s.pc false = .findMapping ⟨⟨0, 0⟩, .pin⟩ ∧
    s.pc true = .writeCas (.deleted ⟨⟨0, 1⟩, .fetch⟩ 0 ⟨0, 0⟩) ∧ s.content ⟨0, 0⟩ 5 = 9 ∧ s.Preserved oneFrame := by
  have final : (executeWithin oneFrame (State.fresh oneFrame Bool oneFrameDisk)
      (calling false (.setBlock ⟨0, 0⟩ [(5, 9)]) 13 ++ calling true (.fetchPageSync ⟨0, 1⟩) 17 ++
        calling false (.pin ⟨0, 0⟩) 0)).map (fun s => (s.pc false, s.pc true, s.content ⟨0, 0⟩ 5)) =
      some (.findMapping ⟨⟨0, 0⟩, .pin⟩, .writeCas (.deleted ⟨⟨0, 1⟩, .fetch⟩ 0 ⟨0, 0⟩), 9) := by
    decide +kernel
  obtain ⟨s, reachable, same⟩ := Reachable.shows (fun _ => rfl) final
  simp only [Prod.mk.injEq] at same
  exact ⟨s, same.1, same.2.1, same.2.2, no_lost_update oneFrame_handles reachable⟩

/-! ## Beyond the widths of the bit-fields -/

/-- A clean frame without a writer differs from the disk. -/
def State.Loses (cfg : PoolConfig) (s : State Unit) : Prop :=
  ∃ page m i, s.Resident cfg page m ∧ cfg.InFile page i ∧ s.memory m i ≠ s.viewDisk page i ∧
    (s.ptes m).dirty = false ∧ ¬ s.Writer page m

/-- A pool of two frames for a file 0 of two pages and a file `fd` of one page. -/
def twoFiles (fd : ℕ) : PoolConfig := samplePool 2 (fun k => if k = 0 then 2 else if k = fd then 1 else 0)
  fun k => by split_ifs <;> decide

/-- Page `p` of file 0 holds the byte `p + 1`, the other file holds the byte 3. -/
def twoFilesDisk (fd k : ℕ) : DiskFile :=
  samplePages (if k = 0 then 2 else if k = fd then 1 else 0)
    fun p => if k = 0 then p.toUInt8 + 1 else 3

/-- Both pages are loaded and released, then a third page needs a victim. -/
def evictingSchedule : List (Unit × Action) :=
  fetchSchedule ⟨2 ^ 13, 0⟩ ++ [((), .call (.decRefCount ⟨2 ^ 13, 0⟩ 0)), ((), .next)] ++
    fetchSchedule ⟨0, 0⟩ ++ [((), .call (.decRefCount ⟨0, 0⟩ 1)), ((), .next)] ++
      ((), .call (.fetchPageSync ⟨0, 1⟩)) :: List.replicate 22 ((), .next)

/-- The victim is taken for a page of the handle that is left of `2 ^ 13`. -/
private theorem handle_loses : ∃ s : State Unit, Reachable (twoFiles (2 ^ 13)) s ∧
    s.Loses (twoFiles (2 ^ 13)) := by
  have final : (executeWithin (twoFiles (2 ^ 13))
      (State.fresh (twoFiles (2 ^ 13)) Unit (twoFilesDisk (2 ^ 13))) evictingSchedule).map
        (fun s => (s.pc (), s.mapping (twoFiles (2 ^ 13)) ⟨2 ^ 13, 0⟩, (s.ptes 0).dirty,
          s.memory 0 0, s.viewDisk ⟨2 ^ 13, 0⟩ 0)) =
      some (.idle, .frame 0, false, 2, 3) := by decide +kernel
  obtain ⟨s, reachable, same⟩ := Reachable.shows (fun _ => rfl) final
  simp only [Prod.mk.injEq] at same
  obtain ⟨idle, mapped, clean, memory, disk⟩ := same
  refine ⟨s, reachable, ⟨2 ^ 13, 0⟩, 0, 0, ⟨by decide, Or.inl mapped⟩, by decide,
    by rw [memory, disk]; decide, clean, ?_⟩
  rintro ⟨_, pinned, _⟩
  rw [idle] at pinned
  cases pinned

/-- The page of file 0 stays pinned, the page of file 1 is used twice and released. -/
def pinningSchedule : List (Unit × Action) :=
  fetchSchedule ⟨0, 0⟩ ++ fetchSchedule ⟨1, 0⟩ ++ ((), .call (.pin ⟨1, 0⟩)) ::
    List.replicate 3 ((), .next) ++ [((), .call (.decRefCount ⟨1, 0⟩ 1)), ((), .next),
      ((), .call (.decRefCount ⟨1, 0⟩ 1)), ((), .next)]

/-- The state in which the count of frame 0 has carried into its handle. -/
private def carried (s : State Unit) : State Unit :=
  s.pinned ⟨0, 0⟩ 0 ((PTE.loaded ⟨0, 0⟩).carry (by decide)) 65535

/-- The pinned frame is taken for the page of file 1 and evicted. -/
private theorem overflow_loses : ∃ s : State Unit, Unbounded (twoFiles 1) s ∧
    s.Loses (twoFiles 1) := by
  have start : Unbounded (twoFiles 1) (State.fresh (twoFiles 1) Unit (twoFilesDisk 1)) :=
    .init (State.fresh_initial fun _ => rfl)
  have first : (execute (twoFiles 1) (State.fresh (twoFiles 1) Unit (twoFilesDisk 1))
      pinningSchedule).map (fun s => (s.pc (), s.mapping (twoFiles 1) ⟨0, 0⟩, s.ptes 0)) =
      some (.idle, .frame 0, PTE.loaded ⟨0, 0⟩) := by decide +kernel
  have second : ((execute (twoFiles 1) (State.fresh (twoFiles 1) Unit (twoFilesDisk 1))
      pinningSchedule).bind fun s => execute (twoFiles 1) (carried s)
        (((), .call (.fetchPageSync ⟨0, 1⟩)) :: List.replicate 26 ((), .next))).map
          (fun s => (s.pc (), s.mapping (twoFiles 1) ⟨0, 0⟩, (s.ptes 0).dirty, s.memory 0 0,
            s.viewDisk ⟨0, 0⟩ 0)) = some (.idle, .frame 0, false, 2, 1) := by decide +kernel
  obtain ⟨s, done, same⟩ := Option.map_eq_some_iff.mp first
  simp only [Prod.mk.injEq] at same
  obtain ⟨idle, mapped, word⟩ := same
  rw [done, Option.bind_some] at second
  obtain ⟨s', done', same'⟩ := Option.map_eq_some_iff.mp second
  simp only [Prod.mk.injEq] at same'
  obtain ⟨idle', mapped', clean, memory, disk⟩ := same'
  have full : Unbounded (twoFiles 1) (carried s) := by
    have wrapped := (start.execute done).overflow idle (by decide) mapped (by rw [word]; rfl)
      (by rw [word]; exact ⟨rfl, rfl⟩) 65533 (by rw [word]; rfl) (by rw [word]; decide)
    simp only [word] at wrapped
    exact wrapped
  refine ⟨s', full.execute done', ⟨0, 0⟩, 0, 0, ⟨by decide, Or.inl mapped'⟩, by decide,
    by rw [memory, disk]; decide, clean, ?_⟩
  rintro ⟨_, pinned, _⟩
  rw [idle'] at pinned
  cases pinned

/-- A handle of `2 ^ 13`, or `2 ^ 16` pins of one page, break the preservation of writes. -/
theorem wide_values_lose :
    (∃ s : State Unit, Reachable (twoFiles (2 ^ 13)) s ∧ s.Loses (twoFiles (2 ^ 13))) ∧
      Handles (twoFiles 1) ∧ ∃ s : State Unit, Unbounded (twoFiles 1) s ∧ s.Loses (twoFiles 1) := by
  refine ⟨handle_loses, fun fd opened => ?_, overflow_loses⟩
  have small : fd = 0 ∨ fd = 1 := by
    by_contra other
    rw [not_or] at other
    simp [twoFiles, samplePool, other.1, other.2] at opened
  omega

end Gbp.Concurrent
