import GraphBufferPool.Pool.FetchSync

/-! # The frame of a fetch

A fetch promotes the frame of a resident page. To load a page it polls a free frame, or takes the frame that `Victim`
chooses where none is free, and hands the frame to the replacer.
-/

namespace Gbp.BufferPool

open Function LawfulReplacer Fuel

variable {R : Type} [Replacer R] {pool pool' taken : BufferPool R} {page : Page} {m : ℕ}

/-- How a fetch of `page` came by frame `m`. -/
inductive Serves (pool : BufferPool R) (place : ℕ → Place) (page : Page) (m : ℕ) (pool' : BufferPool R) : Prop
  | hit (here : place m = .resident page) (free : pool'.freeList = pool.freeList)
      (promoted : Replacer.promote pool.replacer m = .ok (true, pool'.replacer))
  | fill (empty : pool.pageTable.word? page = some .empty) (free : pool.freeList = m :: pool'.freeList)
      (inserted : Replacer.insert pool.replacer m = .ok (true, pool'.replacer))
  | evict {r : R} {table : PageTable} (empty : pool.pageTable.word? page = some .empty) (full : pool.freeList = [])
      (full' : pool'.freeList = [])
      (chosen : Replacer.victim pool.replacer (pool.lockPage page).pageTable = .ok (some m, r, table))
      (inserted : Replacer.insert r m = .ok (true, pool'.replacer))

/-- A pin promotes its frame. -/
theorem pin_promoted (ran : pool.pin page = .ok (some m, pool')) :
    pool'.freeList = pool.freeList ∧ Replacer.promote pool.replacer m = .ok (true, pool'.replacer) := by
  obtain ⟨word, _, ran⟩ := bind_eq_ok.mp ran
  cases word with
  | empty | busy => cases ran
  | frame k =>
    dsimp only at ran
    split_ifs at ran
    · obtain ⟨⟨promoted, r⟩, done, ran⟩ := bind_eq_ok.mp ran
      cases promoted with
      | false => cases ran
      | true =>
        cases ran
        exact ⟨rfl, done⟩
    · cases ran

/-- A frame is published to the replacer. -/
theorem publish_inserted (ran : pool.publish page m = .ok pool') :
    pool'.freeList = pool.freeList ∧ Replacer.insert pool.replacer m = .ok (true, pool'.replacer) := by
  obtain ⟨⟨inserted, r⟩, done, ran⟩ := bind_eq_ok.mp ran
  cases inserted with
  | false => cases ran
  | true =>
    obtain ⟨_, _, ran⟩ := bind_eq_ok.mp ran
    obtain ⟨⟨created, table⟩, _, ran⟩ := bind_eq_ok.mp ran
    cases created with
    | false => cases ran
    | true =>
      cases ran
      exact ⟨rfl, done⟩

omit [Replacer R] in
/-- The write-back of a victim leaves the replacer and the free list alone. -/
theorem evictingPhase_same (ran : pool.evictingPhase m = .ok pool') :
    pool'.freeList = pool.freeList ∧ pool'.replacer = pool.replacer := by
  unfold evictingPhase at ran
  dsimp only at ran
  split_ifs at ran
  all_goals
    obtain ⟨_, _, ran⟩ := bind_eq_ok.mp ran
    obtain ⟨⟨deleted, _⟩, _, ran⟩ := bind_eq_ok.mp ran
    cases deleted with
    | false => cases ran
    | true =>
      cases ran
      exact ⟨rfl, rfl⟩

/-- The frame of a load is free, or it is the one that `Victim` chooses. -/
theorem takeFrame_source (ran : (pool.lockPage page).takeFrame = .ok (m, taken)) :
    (pool.freeList = m :: taken.freeList ∧ taken.replacer = pool.replacer) ∨ pool.freeList = [] ∧ taken.freeList = [] ∧
      ∃ table, Replacer.victim pool.replacer (pool.lockPage page).pageTable = .ok (some m, taken.replacer, table) := by
  have sameFree : (pool.lockPage page).freeList = pool.freeList := rfl
  rcases takeFrame_cases ran with polled | ⟨chosen, picked, evicted⟩
  · unfold initingPhase at polled
    rw [sameFree] at polled
    cases free : pool.freeList with
    | cons first rest =>
      rw [free] at polled
      cases polled
      exact Or.inl ⟨rfl, rfl⟩
    | nil =>
      rw [free] at polled
      obtain ⟨⟨victim, _, _⟩, _, polled⟩ := bind_eq_ok.mp polled
      cases victim <;> cases polled
  · unfold initingPhase at picked
    rw [sameFree] at picked
    cases free : pool.freeList with
    | cons first rest =>
      rw [free] at picked
      cases picked
    | nil =>
      rw [free] at picked
      obtain ⟨⟨victim, r, table⟩, found, picked⟩ := bind_eq_ok.mp picked
      cases victim with
      | none => cases picked
      | some victim =>
        cases picked
        obtain ⟨sameFree', sameReplacer⟩ := evictingPhase_same evicted
        exact Or.inr ⟨rfl, sameFree', table, by rw [sameReplacer]; exact found⟩

/-- The load of a page. -/
theorem loadPage_serves {place : ℕ → Place} (empty : pool.pageTable.word? page = some .empty)
    (ran : pool.loadPage page = .ok (m, pool')) : Serves pool place page m pool' := by
  obtain ⟨⟨k, taken⟩, took, ran⟩ := bind_eq_ok.mp ran
  obtain ⟨read, filled, ran⟩ := bind_eq_ok.mp ran
  obtain ⟨published, done, result⟩ := bind_eq_ok.mp ran
  cases result
  obtain ⟨_, _, filled⟩ := bind_eq_ok.mp filled
  cases filled
  obtain ⟨sameFree, inserted⟩ := publish_inserted done
  rcases takeFrame_source took with ⟨free, same⟩ | ⟨full, full', table, chosen⟩
  · exact .fill empty (sameFree ▸ free) (by rw [← same]; exact inserted)
  · exact .evict empty full (sameFree.trans full') chosen inserted

variable [LawfulReplacer R] {place : ℕ → Place} {pins : List (Page × ℕ)}

/-- A pool between calls: no flush has left a frame locked, and the replacer tracks the used frames. -/
structure Rests (pool : BufferPool R) (place : ℕ → Place)
    (pins : List (Page × ℕ)) : Prop where
  inv : Inv pool place pins
  strict : Strict pool place
  ready : Ready pool.replacer
  unlocked : ∀ m page, ¬ (place m).Locks page

/-- A fetch that returns came by its frame in one of these ways. -/
theorem Inv.serves (inv : Inv pool place pins) (owns : pool.Owns page)
    (ran : Returns (fun fuel => fetchPageSync fuel page pool) (m, pool')) : Serves pool place page m pool' := by
  rcases inv.word?_cases owns with ⟨k, here⟩ | locked | empty
  · obtain ⟨r, _, pinned, _⟩ := inv.exists_pin here
    have returned : Returns (fun fuel => fetchPageSync fuel page pool) (k, pool.withPin k r) :=
      Returns.congr (fun fuel => by rw [fetchPageSync, pinned]; rfl) .const
    cases ran.unique returned
    obtain ⟨free, promoted⟩ := pin_promoted pinned
    exact .hit here free promoted
  · exact absurd ran (Returns.not_of_error (fetchPageSync_busy ((inv.locked page owns).mpr locked)) _)
  · exact loadPage_serves empty ((Returns.shift 4 (fetchPageSync_empty empty)).mp ran).of_const

/-- Where `Victim` chooses a frame, the fetch of an unmapped page returns. -/
theorem Inv.exists_evict (inv : Inv pool place pins) (able : Able pool place) (owns : pool.Owns page)
    (empty : pool.pageTable.word? page = some .empty) (full : pool.freeList = []) {r : R} {table : PageTable}
    (chosen : Replacer.victim pool.replacer (pool.lockPage page).pageTable = .ok (some m, r, table)) :
    ∃ pool', Returns (fun fuel => fetchPageSync fuel page pool) (m, pool') := by
  obtain ⟨evicted, there, _⟩ := inv.taken_of_victim able owns empty full chosen
  have took : (pool.lockPage page).takeFrame = .ok (m, evicted) := by
    have sameFree : (pool.lockPage page).freeList = [] := full
    have samePicked : Replacer.victim (pool.lockPage page).replacer (pool.lockPage page).pageTable =
      .ok (some m, r, table) := chosen
    rw [takeFrame, initingPhase, sameFree]
    simp only [samePicked, ok_bind]
    exact (congrArg (fun result => result >>= fun pool => Except.ok (m, pool)) there).trans rfl
  obtain ⟨pool', loads⟩ := inv.loadPage_taken able owns empty took
  exact ⟨pool', (Returns.shift 4 (fetchPageSync_empty empty)).mpr (loads ▸ .const)⟩

end Gbp.BufferPool
