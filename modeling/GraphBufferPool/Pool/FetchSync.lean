import GraphBufferPool.Lib.Fuel
import GraphBufferPool.Pool.Fetch

/-! # What `FetchPageSync` returns

The call as a whole: it pins a resident page, it loads a page with an empty mapping, and it never
returns while the mapping of the page is BUSY. Where every frame is free or resident, it returns as
soon as fewer pins are outstanding than the pool has frames.
-/

namespace Gbp.BufferPool

open Function LawfulReplacer Fuel

variable {R : Type} [Replacer R] {pool pool' : BufferPool R} {page : Page} {m : ℕ}

theorem initingPhase_shape {phase : Phase} (ran : pool.initingPhase = .ok (phase, pool')) :
    (∃ m, phase = .loading m) ∨ ∃ m, phase = .evicting m := by
  unfold initingPhase at ran
  split at ran
  · cases ran
    exact Or.inl ⟨_, rfl⟩
  · obtain ⟨⟨victim, r, pageTable⟩, _, ran⟩ := bind_eq_ok.mp ran
    cases victim with
    | none => cases ran
    | some m =>
      cases ran
      exact Or.inr ⟨_, rfl⟩

/-- A frame is taken from the free list, or from a victim. -/
theorem takeFrame_cases {taken : BufferPool R} (took : pool.takeFrame = .ok (m, taken)) :
    pool.initingPhase = .ok (.loading m, taken) ∨
      ∃ chosen, pool.initingPhase = .ok (.evicting m, chosen) ∧ chosen.evictingPhase m = .ok taken := by
  obtain ⟨⟨phase, chosen⟩, picked, rest⟩ := bind_eq_ok.mp took
  rcases initingPhase_shape picked with ⟨k, rfl⟩ | ⟨k, rfl⟩
  · cases rest
    exact Or.inl picked
  · obtain ⟨_, evicted, rest⟩ := bind_eq_ok.mp rest
    cases rest
    exact Or.inr ⟨chosen, picked, evicted⟩

/-- A page with an empty mapping is loaded. -/
theorem fetchPageSync_empty (empty : pool.pageTable.word? page = some .empty) (fuel : ℕ) :
    fetchPageSync (fuel + 4) page pool = pool.loadPage page := by
  simp only [fetchPageSync, pin_empty empty, ok_bind, fetchLoop, beginPhase_empty empty, loadPage,
    takeFrame]
  cases chosen : (pool.lockPage page).initingPhase with
  | error stop => rfl
  | ok result =>
    obtain ⟨phase, locked⟩ := result
    rcases initingPhase_shape chosen with ⟨m, rfl⟩ | ⟨m, rfl⟩
    · rfl
    · simp only [ok_bind, fetchLoop]
      cases locked.evictingPhase m <;> rfl

/-- The loop never leaves state `Begin` while the mapping is BUSY. -/
theorem fetchPageSync_busy (busy : pool.pageTable.word? page = some .busy) (fuel : ℕ) :
    fetchPageSync fuel page pool = .error .outOfFuel := by
  simp only [fetchPageSync, pin_busy busy, ok_bind]
  induction fuel with
  | zero => rfl
  | succ fuel ih => simpa only [fetchLoop, beginPhase_busy busy, ok_bind] using ih

/-- More rounds never change the result. -/
theorem fetchLoop_stable (page : Page) (phase : Phase) (pool : BufferPool R) :
    Stable fun fuel => fetchLoop page fuel phase pool := by
  intro fuel
  induction fuel generalizing phase pool with
  | zero => nofun
  | succ fuel ih =>
    intro result ran
    cases phase with
    | begin | initing | evicting =>
      obtain ⟨_, first, rest⟩ := bind_eq_ok.mp ran
      exact bind_eq_ok.mpr ⟨_, first, ih _ _ _ rest⟩
    | loading | finish => exact ran
    | reBegin | loadingFinish => exact ih _ _ _ ran

theorem fetchPageSync_stable (page : Page) (pool : BufferPool R) :
    Stable fun fuel => fetchPageSync fuel page pool := by
  refine .bind (.const _) ?_
  rintro ⟨pinned, next⟩
  cases pinned with
  | none => exact fetchLoop_stable page .begin next
  | some m => exact .const _

variable [LawfulReplacer R] {place place' : ℕ → Place} {pins : List (Page × ℕ)}

/-- What a returned fetch of `page` did. -/
inductive Fetched (pool : BufferPool R) (place : ℕ → Place) (page : Page) (m : ℕ) :
    BufferPool R → (ℕ → Place) → Prop
  | hit (here : place m = .resident page) (r : R) (same : SameFrames pool.replacer r) :
      Fetched pool place page m (pool.withPin m r) place
  | load (empty : pool.pageTable.word? page = some .empty) (bytes : Bytes) (pool' : BufferPool R)
      (read : ReadFrom pool'.disk page bytes) (loaded : Loaded pool place page m bytes pool') :
      Fetched pool place page m pool' (update place m (.resident page))

/-- No frame is locked, orphaned or taken. -/
def Quiet (place : ℕ → Place) : Prop :=
  ∀ m, place m = .absent ∨ place m = .free ∨ ∃ page, place m = .resident page

theorem Quiet.not_locks (quiet : Quiet place) (m : ℕ) (page : Page) : ¬ (place m).Locks page := by
  rcases quiet m with here | here | ⟨other, here⟩ <;> simp [here, Place.Locks]

theorem Quiet.not_loading (quiet : Quiet place) (m : ℕ) (page : Page) : place m ≠ .loading page := by
  rcases quiet m with here | here | ⟨other, here⟩ <;> simp [here]

theorem Quiet.not_orphan (quiet : Quiet place) (m : ℕ) (page : Page) : place m ≠ .orphan page := by
  rcases quiet m with here | here | ⟨other, here⟩ <;> simp [here]

theorem Quiet.update (quiet : Quiet place) (m : ℕ) (page : Page) :
    Quiet (update place m (.resident page)) := by
  intro k
  by_cases same : k = m
  · subst same
    exact Or.inr (Or.inr ⟨page, update_self ..⟩)
  · rw [update_of_ne same]
    exact quiet k

theorem Fetched.quiet (fetched : Fetched pool place page m pool' place') (quiet : Quiet place) :
    Quiet place' := by
  cases fetched with
  | hit => exact quiet
  | load => exact quiet.update m page

theorem Fetched.resident (fetched : Fetched pool place page m pool' place') :
    place' m = .resident page := by
  cases fetched with
  | hit here => exact here
  | load => exact update_self ..

/-- A fetch leaves the bytes of the pinned frames alone. -/
theorem Fetched.memory_pinned (fetched : Fetched pool place page m pool' place') (inv : Inv pool place pins)
    {other : Page} {k : ℕ} (pin : (other, k) ∈ pins) : pool'.memory k = pool.memory k := by
  cases fetched with
  | hit => rfl
  | load empty bytes pool' read loaded =>
    have held := inv.pinned other k pin
    have apart : k ≠ m := by
      rintro rfl
      rcases loaded.source with ⟨free, _⟩ | ⟨old, here, unpinned, _⟩
      · simp [free] at held
      · rw [inv.counted k old (Or.inl here)] at unpinned
        have positive : 0 < pins.countP fun pin => pin.2 = k :=
          List.countP_pos_iff.mpr ⟨(other, k), pin, by simp⟩
        omega
    rw [loaded.memory, Function.update_of_ne apart]

/-- Between calls `Victim` can always be called. -/
theorem Inv.able (inv : Inv pool place pins) (quiet : ∀ m page, place m ≠ .loading page) :
    Able pool place :=
  fun full => ⟨inv.strict_of_full full quiet, inv.ready_of_full full quiet⟩

/-- A call that returns has pinned the page, loading it first where it was not resident. -/
theorem Inv.fetchPageSync_sound (inv : Inv pool place pins) (able : Able pool place)
    (owns : pool.Owns page) (room : ∀ m, Room pins m)
    (ran : Returns (fun fuel => fetchPageSync fuel page pool) (m, pool')) :
    ∃ place', Fetched pool place page m pool' place' ∧ Inv pool' place' ((page, m) :: pins) := by
  rcases inv.word?_cases owns with ⟨k, here⟩ | locked | empty
  · obtain ⟨r, same, pinned, _⟩ := inv.exists_pin here
    have returned : Returns (fun fuel => fetchPageSync fuel page pool) (k, pool.withPin k r) :=
      Returns.congr (fun fuel => by rw [fetchPageSync, pinned]; rfl) .const
    cases ran.unique returned
    exact ⟨place, .hit here r same, inv.addPin here (room _) same.capacity same.frames same.calm⟩
  · exact absurd ran
      (Returns.not_of_error (fetchPageSync_busy ((inv.locked page owns).mpr locked)) _)
  · have loads := ((Returns.shift 4 (fetchPageSync_empty empty)).mp ran).of_const
    obtain ⟨bytes, read, loaded, inv'⟩ := inv.loadPage_sound able owns empty loads
    exact ⟨_, .load empty bytes pool' read loaded, inv'⟩

/-- With fewer pins than frames, some frame is free or holds an unpinned page. -/
theorem Inv.available (inv : Inv pool place pins) (quiet : Quiet place)
    (spare : pins.length < pool.poolSize) : Available pool place := by
  by_contra none
  simp only [Available, not_or, not_not, not_exists, not_and] at none
  obtain ⟨full, pinned⟩ := none
  have held : List.range pool.poolSize ⊆ pins.map Prod.snd := by
    intro m inside
    rw [List.mem_range] at inside
    rcases quiet m with here | here | ⟨page, here⟩
    · exact absurd ((inv.absent m).mp here) (by omega)
    · have := (inv.free m).mpr here
      rw [full] at this
      cases this
    · have counted := inv.counted m page (Or.inl here)
      have positive : 0 < pins.countP fun pin => pin.2 = m := by
        have := pinned m page here
        omega
      obtain ⟨pin, member, same⟩ := List.countP_pos_iff.mp positive
      exact List.mem_map.mpr ⟨pin, member, by simpa using same⟩
  have bound := (List.nodup_range.subperm held).length_le
  rw [List.length_range, List.length_map] at bound
  omega

theorem Inv.fetchPageSync_complete (inv : Inv pool place pins) (quiet : Quiet place)
    (owns : pool.Owns page) (spare : pins.length < pool.poolSize) :
    ∃ m pool', Returns (fun fuel => fetchPageSync fuel page pool) (m, pool') := by
  rcases inv.word?_cases owns with ⟨k, here⟩ | ⟨k, locks⟩ | empty
  · obtain ⟨r, _, pinned, _⟩ := inv.exists_pin here
    exact ⟨k, _, Returns.congr (fun fuel => by rw [fetchPageSync, pinned]; rfl) .const⟩
  · exact absurd locks (quiet.not_locks k page)
  · obtain ⟨m, pool', loads⟩ := inv.loadPage_complete (inv.able quiet.not_loading) owns empty
      (inv.available quiet spare) quiet.not_orphan
    exact ⟨m, pool', (Returns.shift 4 (fetchPageSync_empty empty)).mpr (loads ▸ .const)⟩

/-- Where a frame is free, the fetch of a page that no flush has left locked returns. -/
theorem Inv.fetchPageSync_free (inv : Inv pool place pins) (settled : ∀ m page, place m ≠ .loading page)
    (owns : pool.Owns page) (empty : pool.pageTable.word? page = some .empty) (free : pool.freeList ≠ []) :
    ∃ m pool', Returns (fun fuel => fetchPageSync fuel page pool) (m, pool') := by
  obtain ⟨m, pool', loads⟩ := inv.loadPage_free (inv.able settled) owns empty free
  exact ⟨m, pool', (Returns.shift 4 (fetchPageSync_empty empty)).mpr (loads ▸ .const)⟩

end Gbp.BufferPool
