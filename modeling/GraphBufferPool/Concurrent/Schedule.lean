import GraphBufferPool.Concurrent.Machine

/-! # Schedules

A schedule names the thread and the action of each step. Short schedules from a fresh pool stay
within the bound on the reference counts.
-/

namespace Gbp.Concurrent

open Function

variable {T : Type} [DecidableEq T] (cfg : PoolConfig)

/-- The state after a schedule, if each of its steps is possible. -/
def execute (s : State T) : List (T × Action) → Option (State T)
  | [] => some s
  | (t, action) :: rest => (step cfg s t action).bind fun s' => execute s' rest

/-- A pool after `init`, on given files. -/
def State.fresh (T : Type) (disk : ℕ → DiskFile) : State T where
  ptes _ := .empty
  mappings _ _ := .empty
  freeList := List.range cfg.poolSize
  list := .new cfg.poolSize
  pointer := .head
  latch := none
  memory _ _ := 0
  disk := disk
  pc _ := .idle
  pins := []
  content page i := (disk page.fd).byte (page.fpageId * pageSize + i)

variable {cfg}

omit [DecidableEq T] in
theorem State.fresh_initial {disk : ℕ → DiskFile} (exact : ∀ fd, (disk fd).length = cfg.fileSize fd) :
    Initial cfg (State.fresh cfg T disk) where
  ptes _ := rfl
  mappings _ := rfl
  freeList := rfl
  list := ⟨rfl, rfl⟩
  pointer := rfl
  latch := rfl
  pc _ := rfl
  pins := rfl
  disk := exact
  content _ _ := rfl

/-- The runs without a bound on the reference counts. -/
def Unbounded (cfg : PoolConfig) : State T → Prop := Machine.Reach (Initial cfg) (Step cfg)

theorem Unbounded.execute {s s' : State T} {schedule : List (T × Action)} (run : Unbounded cfg s)
    (done : execute cfg s schedule = some s') : Unbounded cfg s' := by
  induction schedule generalizing s with
  | nil =>
    cases done
    exact run
  | cons action rest ih =>
    obtain ⟨s₁, moved, done⟩ := Option.bind_eq_some_iff.mp done
    exact ih (run.step ⟨_, _, moved⟩) done

/-- The state after a pin of a page in frame `m` whose word becomes `word`. -/
def State.pinned (s : State T) (page : Page) (m : ℕ) (word : PTE) (count : ℕ) : State T :=
  { s with
    list := s.list.setValue m 1
    ptes := update s.ptes m word
    pins := List.replicate count (page, m) ++ s.pins }

omit [DecidableEq T] in
theorem State.pinned_pte (s : State T) (page : Page) (m : ℕ) (word : PTE) (count : ℕ) :
    (s.pinned page m word count).ptes m = word := update_self ..

/-- A thread outside any call pins a mapped page. -/
theorem Unbounded.pin {s : State T} {t : T} (run : Unbounded cfg s) (idle : s.pc t = .idle)
    {page : Page} {m : ℕ} (valid : cfg.Valid page) (mapped : s.mapping cfg page = .frame m)
    (free : (s.ptes m).busy = false) (described : (s.ptes m).describes page) :
    Unbounded cfg (s.pinned page m ((s.ptes m).fetchAdd 1) 1) := by
  have called : step cfg s t (.call (.pin page)) = some (s.goto t (.findMapping ⟨page, .pin⟩)) := by
    simp only [step, idle, if_true, call, if_pos valid]
  have found : step cfg (s.goto t (.findMapping ⟨page, .pin⟩)) t .next =
      some (s.goto t (.incRefCount ⟨page, .pin⟩ m)) := by
    have here : (s.goto t (.findMapping ⟨page, .pin⟩)).pc t = .findMapping ⟨page, .pin⟩ :=
      update_self ..
    have same : (s.goto t (.findMapping ⟨page, .pin⟩)).mapping cfg page = .frame m := mapped
    simp only [step, here, next, same]
    simp only [State.goto, update_idem]
  have counted : step cfg (s.goto t (.incRefCount ⟨page, .pin⟩ m)) t .next =
      some ((s.setPte m ((s.ptes m).fetchAdd 1)).goto t (.promote ⟨page, .pin⟩ m)) := by
    have here : (s.goto t (.incRefCount ⟨page, .pin⟩ m)).pc t = .incRefCount ⟨page, .pin⟩ m :=
      update_self ..
    have word : (s.goto t (.incRefCount ⟨page, .pin⟩ m)).ptes m = s.ptes m := rfl
    simp only [step, here, next, word, free, if_pos described, Bool.false_eq_true, if_false]
    simp only [State.goto, State.setPte, update_idem]
  have promoted : step cfg ((s.setPte m ((s.ptes m).fetchAdd 1)).goto t
      (.promote ⟨page, .pin⟩ m)) t .next = some (s.pinned page m ((s.ptes m).fetchAdd 1) 1) := by
    have here : ((s.setPte m ((s.ptes m).fetchAdd 1)).goto t (.promote ⟨page, .pin⟩ m)).pc t =
      .promote ⟨page, .pin⟩ m := update_self ..
    have back : update (update s.pc t (.promote ⟨page, .pin⟩ m)) t .idle = s.pc := by
      rw [update_idem, ← idle, update_eq_self]
    simp only [step, here, next, State.finish]
    simp only [State.goto, State.setPte, back]
    rfl
  exact (((run.step ⟨_, _, called⟩).step ⟨_, _, found⟩).step ⟨_, _, counted⟩).step ⟨_, _, promoted⟩

/-- It may pin the page until the reference count is at its width. -/
theorem Unbounded.pins {s : State T} {t : T} (run : Unbounded cfg s) (idle : s.pc t = .idle)
    {page : Page} {m : ℕ} (valid : cfg.Valid page) (mapped : s.mapping cfg page = .frame m)
    (free : (s.ptes m).busy = false) (described : (s.ptes m).describes page) (n : ℕ)
    (bound : (s.ptes m).refCount + (n + 1) < 2 ^ 16) :
    Unbounded cfg (s.pinned page m ((s.ptes m).setRefCount _ bound) (n + 1)) := by
  induction n with
  | zero =>
    have once := run.pin idle valid mapped free described
    rwa [PTE.fetchAdd_one _ bound] at once
  | succ n ih =>
    have before := ih (by omega)
    have again := before.pin (t := t) idle valid mapped (by rw [State.pinned_pte]; exact free)
      (by rw [State.pinned_pte]; exact described)
    have word : ((s.ptes m).setRefCount ((s.ptes m).refCount + (n + 1)) (by omega)).fetchAdd 1 =
        (s.ptes m).setRefCount ((s.ptes m).refCount + (n + 1 + 1)) bound := by
      rw [PTE.fetchAdd_one _ bound]
      rfl
    have values : (s.list.setValue m 1).setValue m 1 = s.list.setValue m 1 := by
      simp only [ListArray.setValue, update_idem]
    simp only [State.pinned, update_self, update_idem, values, word] at again
    simpa only [State.pinned, List.replicate_succ, List.replicate_zero, List.nil_append,
      List.cons_append] using again

/-- One pin more empties the count and changes the handle of the frame. -/
theorem Unbounded.overflow {s : State T} {t : T} (run : Unbounded cfg s) (idle : s.pc t = .idle)
    {page : Page} {m : ℕ} (valid : cfg.Valid page) (mapped : s.mapping cfg page = .frame m)
    (free : (s.ptes m).busy = false) (described : (s.ptes m).describes page) (n : ℕ)
    (full : (s.ptes m).refCount + (n + 2) = 2 ^ 16) (room : (s.ptes m).fdCur + 1 < 2 ^ 13) :
    Unbounded cfg (s.pinned page m ((s.ptes m).carry room) (n + 2)) := by
  have bound : (s.ptes m).refCount + (n + 1) < 2 ^ 16 := by omega
  have before := run.pins idle valid mapped free described n bound
  have again := before.pin (t := t) idle valid mapped (by rw [State.pinned_pte]; exact free)
    (by rw [State.pinned_pte]; exact described)
  have word : ((s.ptes m).setRefCount ((s.ptes m).refCount + (n + 1)) bound).fetchAdd 1 =
      (s.ptes m).carry room :=
    PTE.fetchAdd_full ((s.ptes m).setRefCount _ bound) (by rw [PTE.setRefCount_refCount]; omega) room
  rw [State.pinned_pte, word] at again
  have values : (s.list.setValue m 1).setValue m 1 = s.list.setValue m 1 := by
    simp only [ListArray.setValue, update_idem]
  simp only [State.pinned, update_idem, values] at again
  exact again

variable [Fintype T]

omit [DecidableEq T] in
theorem State.bounded_of_pins {s : State T} (few : s.pins.length + 2 * Fintype.card T < 2 ^ 16) :
    s.Bounded := by
  intro m
  have kept := List.countP_le_length (p := fun pin : Page × ℕ => decide (pin.2 = m)) (l := s.pins)
  have inHand := Counting.count_le_card (fun pin : Option (Page × ℕ) => pin.map Prod.snd = some m)
    (fun t => (s.pc t).pin?)
  simp only [State.outstanding]
  omega

/-- The state after a schedule on which few pins are outstanding at any time. -/
def executeWithin (cfg : PoolConfig) (s : State T) : List (T × Action) → Option (State T)
  | [] => some s
  | (t, action) :: rest =>
    if s.pins.length + 2 * Fintype.card T < 2 ^ 16 then
      (step cfg s t action).bind fun s' => executeWithin cfg s' rest
    else none

theorem Reachable.executeWithin {s s' : State T} {schedule : List (T × Action)}
    (run : Reachable cfg s) (done : executeWithin cfg s schedule = some s') : Reachable cfg s' := by
  induction schedule generalizing s with
  | nil =>
    cases done
    exact run
  | cons action rest ih =>
    simp only [Concurrent.executeWithin] at done
    split_ifs at done with few
    obtain ⟨s₁, moved, done⟩ := Option.bind_eq_some_iff.mp done
    exact ih (run.step ⟨State.bounded_of_pins few, _, _, moved⟩) done

/-- What a schedule from a fresh pool shows of the state that it reaches. -/
theorem Reachable.shows {disk : ℕ → DiskFile} (exact : ∀ fd, (disk fd).length = cfg.fileSize fd)
    {schedule : List (T × Action)} {α : Type} {shown : State T → α} {a : α}
    (final : (Concurrent.executeWithin cfg (State.fresh cfg T disk) schedule).map shown = some a) :
    ∃ s, Reachable cfg s ∧ shown s = a := by
  obtain ⟨s, done, same⟩ := Option.map_eq_some_iff.mp final
  have start : Reachable cfg (State.fresh cfg T disk) := .init (State.fresh_initial exact)
  exact ⟨s, start.executeWithin done, same⟩

section sample
omit [Fintype T] [DecidableEq T]

/-- A file of `pages` whole pages in which each byte of page `p` is `fill p`. -/
def samplePages (pages : ℕ) (fill : ℕ → UInt8) : DiskFile where
  length := pages * pageSize
  byte i := if i < pages * pageSize then fill (i / pageSize) else 0
  byte_past _ past := if_neg (Nat.not_lt.mpr past)

/-- One pool of `frames` frames for files of the given numbers of pages. -/
def samplePool (frames : ℕ) (pages : ℕ → ℕ) (small : ∀ fd, pages fd < 2 ^ 32) : PoolConfig where
  partitioner := ⟨0⟩
  poolId := 0
  poolSize := frames
  fileSize fd := pages fd * pageSize
  fileSize_lt fd := by
    have := small fd
    simp only [pageSize]
    omega

/-- A pool of one frame for a file of one page. -/
def onePage : PoolConfig := samplePool 1 (fun fd => if fd = 0 then 1 else 0)
  fun fd => by split_ifs <;> decide

theorem onePage_handles (fd : ℕ) (opened : 0 < onePage.fileSize fd) : fd < 2 ^ 13 := by
  have zero : fd = 0 := by
    by_contra other
    simp [onePage, samplePool, other] at opened
  omega

/-- The disk of `onePage`. -/
def onePageDisk (fd : ℕ) : DiskFile := samplePages (if fd = 0 then 1 else 0) fun _ => 7

/-- A pool of one frame for a file of two pages. -/
def oneFrame : PoolConfig := samplePool 1 (fun fd => if fd = 0 then 2 else 0)
  fun fd => by split_ifs <;> decide

theorem oneFrame_handles (fd : ℕ) (opened : 0 < oneFrame.fileSize fd) : fd < 2 ^ 13 := by
  have zero : fd = 0 := by
    by_contra other
    simp [oneFrame, samplePool, other] at opened
  omega

/-- The disk of `oneFrame`. -/
def oneFrameDisk (fd : ℕ) : DiskFile := samplePages (if fd = 0 then 2 else 0) fun _ => 7

/-- A call of a thread with so many steps of it. -/
def calling (t : T) (op : Op) (steps : ℕ) : List (T × Action) := (t, .call op) :: List.replicate steps (t, .next)

end sample

/-- A fetch of a page from the free list into the frame it polls takes nine steps. -/
def fetchSchedule (page : Page) : List (Unit × Action) :=
  ((), .call (.fetchPageSync page)) :: List.replicate 9 ((), .next)

/-- A run that leaves a page pinned. -/
theorem exists_pinned : ∃ s : State Unit, Reachable onePage s ∧ s.pc () = .idle ∧
    s.pins = [(⟨0, 0⟩, 0)] ∧ s.mapping onePage ⟨0, 0⟩ = .frame 0 ∧ s.ptes 0 = PTE.loaded ⟨0, 0⟩ := by
  have final : (executeWithin onePage (State.fresh onePage Unit onePageDisk)
      (fetchSchedule ⟨0, 0⟩)).map (fun s => (s.pc (), s.pins, s.mapping onePage ⟨0, 0⟩, s.ptes 0)) =
      some (.idle, [(⟨0, 0⟩, 0)], .frame 0, PTE.loaded ⟨0, 0⟩) := by rfl
  obtain ⟨s, reachable, same⟩ := Reachable.shows (fun _ => rfl) final
  simp only [Prod.mk.injEq] at same
  exact ⟨s, reachable, same⟩

end Gbp.Concurrent
