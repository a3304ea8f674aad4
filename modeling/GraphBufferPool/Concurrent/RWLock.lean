import GraphBufferPool.Lib.SharedLock
import GraphBufferPool.Lib.Update

/-! # The reader-writer lock over a condition variable

`RWLock`: each of its methods is one critical section of `mutex_`, in which it either goes on or waits on `cv_`. A
thread that waits does so because its condition is false: every change that could make it true wakes all waiting
threads.
-/

namespace Gbp

open Function Machine SharedLock Counting

/-- Where a thread is in the methods of `RWLock`. -/
inductive RWPhase
  | idle
  | lockingShared
  | waitingShared
  | reading
  | lockingExclusive
  | waitingExclusive
  | writing
deriving DecidableEq, Repr

namespace RWPhase

/-- The phase after `cv_.notify_all`. -/
def woken : RWPhase → RWPhase
  | .waitingShared => .lockingShared
  | .waitingExclusive => .lockingExclusive
  | phase => phase

/-- How a thread in this phase holds the lock. -/
def hold : RWPhase → Hold
  | .reading => .shared
  | .writing => .exclusive
  | _ => .none

end RWPhase

/-- `RWLock`, and where each thread is. -/
structure RWLock (T : Type) where
  nReaders : ℕ
  writing : Bool
  phase : T → RWPhase

namespace RWLock

variable {T : Type} [Fintype T] [DecidableEq T]

/-- No thread has called the lock yet. -/
def new : RWLock T := ⟨0, false, fun _ => .idle⟩

/-- Thread `t` goes on to a phase. -/
def enter (s : RWLock T) (t : T) (phase : RWPhase) : RWLock T := { s with phase := update s.phase t phase }

/-- `cv_.notify_all`. -/
def notifyAll (s : RWLock T) : RWLock T := { s with phase := fun t => (s.phase t).woken }

/-- The next step of thread `t`. Outside the lock it calls `WriteLock` if `input` says so, else `ReadLock`; from `cv_`
it wakes up without a notification if `input` says so. -/
def step (s : RWLock T) (t : T) (input : Bool) : RWLock T :=
  match s.phase t with
  | .idle => s.enter t (if input then .lockingExclusive else .lockingShared)
  | .lockingShared =>
    if s.writing then s.enter t .waitingShared
    else { s with nReaders := increment 64 s.nReaders }.enter t .reading
  | .waitingShared => s.enter t (if input then .lockingShared else .waitingShared)
  | .reading => ({ s with nReaders := decrement 64 s.nReaders }.enter t .idle).notifyAll
  | .lockingExclusive =>
    if s.nReaders = 0 ∧ s.writing = false then { s with writing := true }.enter t .writing
    else s.enter t .waitingExclusive
  | .waitingExclusive => s.enter t (if input then .lockingExclusive else .waitingExclusive)
  | .writing => ({ s with writing := false }.enter t .idle).notifyAll

/-- Any interleaving of the steps of the threads. -/
abbrev Run (s : RWLock T) : Prop := Reach (· = new) (fun s s' => ∃ t input, s' = s.step t input) s

/-- How each thread holds the lock. -/
def holds (s : RWLock T) (t : T) : Hold := (s.phase t).hold

/-- The counter and the flag are those of the threads, a writer is alone, and waiting threads have to wait. -/
structure Consistent (s : RWLock T) : Prop where
  counted : s.nReaders = count (· = .reading) s.phase
  claimed : Claimed s.writing fun t => s.phase t = .writing
  alone : s.writing = true → s.nReaders = 0
  shared : ∀ t, s.phase t = .waitingShared → s.writing = true
  exclusive : ∀ t, s.phase t = .waitingExclusive → s.nReaders ≠ 0 ∨ s.writing = true

omit [DecidableEq T] in
theorem consistent_new : Consistent (new : RWLock T) where
  counted := by simp [new, count]
  claimed := Or.inl ⟨rfl, by simp [new]⟩
  alone := by simp [new]
  shared := by simp [new]
  exclusive := by simp [new]

variable {s : RWLock T} {t : T} {n : ℕ} {flag : Bool} {phase : RWPhase}

/-- A step that is consistent, and seen at the lock or not seen at all. -/
def Refining (s s' : RWLock T) : Prop :=
  s'.Consistent ∧ (s'.holds = s.holds ∨ SharedLock.Step s.holds s'.holds)

theorem woken_eq_iff (other : phase ≠ .lockingShared ∧ phase ≠ .lockingExclusive ∧ phase ≠ .waitingShared ∧
    phase ≠ .waitingExclusive) (before : RWPhase) : before.woken = phase ↔ before = phase := by
  cases before <;> simp only [RWPhase.woken] <;> grind

omit [Fintype T] in
theorem holds_update : holds ⟨n, flag, update s.phase t phase⟩ = update s.holds t phase.hold := by
  funext u
  rcases eq_or_ne u t with rfl | apart
  · simp [holds]
  · simp [holds, apart]

omit [Fintype T] in
theorem unlock_step (s : RWLock T) (held : (s.phase t).hold ≠ .none) (out : phase.hold = .none) :
    SharedLock.Step s.holds (holds ⟨n, flag, update s.phase t phase⟩) := by
  rw [holds_update, out]
  exact .unlock held

omit [Fintype T] [DecidableEq T] in
theorem holds_notifyAll (s : RWLock T) : s.notifyAll.holds = s.holds := by
  funext u
  simp only [holds, notifyAll]
  cases s.phase u <;> rfl

omit [DecidableEq T] in
/-- After a notification no thread waits. -/
theorem Consistent.notifyAll (counted : s.nReaders = count (· = .reading) s.phase)
    (claimed : Claimed s.writing fun t => s.phase t = .writing) (alone : s.writing = true → s.nReaders = 0) :
    s.notifyAll.Consistent where
  counted := by
    rw [RWLock.notifyAll, counted]
    apply congrArg Finset.card
    apply Finset.filter_congr
    intro u _
    exact (woken_eq_iff (by simp) _).symm
  claimed := claimed.congr fun u => woken_eq_iff (by simp) _
  alone := alone
  shared := by
    intro u waiting
    simp only [RWLock.notifyAll] at waiting
    cases there : s.phase u <;> simp [there, RWPhase.woken] at waiting
  exclusive := by
    intro u waiting
    simp only [RWLock.notifyAll] at waiting
    cases there : s.phase u <;> simp [there, RWPhase.woken] at waiting

/-- A step between phases without the lock. -/
theorem Consistent.wander (before : s.Consistent) (out : (s.phase t).hold = .none) (out' : phase.hold = .none)
    (shared : phase = .waitingShared → s.writing = true)
    (exclusive : phase = .waitingExclusive → s.nReaders ≠ 0 ∨ s.writing = true) : Refining s (s.enter t phase) := by
  have notReading : s.phase t ≠ .reading ∧ phase ≠ .reading := by
    constructor <;> rintro same <;> simp [same, RWPhase.hold] at out out'
  have notWriting : s.phase t ≠ .writing ∧ phase ≠ .writing := by
    constructor <;> rintro same <;> simp [same, RWPhase.hold] at out out'
  refine ⟨?_, Or.inl ?_⟩
  · constructor
    · exact before.counted.trans (count_update_of_iff _ _ (by simp [notReading])).symm
    · exact before.claimed.congr (apply_update_of_iff (p := (· = RWPhase.writing)) (by simp [notWriting]))
    · exact before.alone
    · intro u waiting
      rcases eq_or_ne u t with rfl | apart
      · exact shared (by simpa [enter] using waiting)
      · exact before.shared u (by simpa [enter, apart] using waiting)
    · intro u waiting
      rcases eq_or_ne u t with rfl | apart
      · exact exclusive (by simpa [enter] using waiting)
      · exact before.exclusive u (by simpa [enter, apart] using waiting)
  · rw [enter, holds_update, out', ← out]
    exact update_eq_self t s.holds

/-- Every step of a thread. -/
theorem Consistent.step (before : s.Consistent) (small : Fintype.card T < 2 ^ 64) (t : T) (input : Bool) :
    Refining s (s.step t input) := by
  unfold RWLock.step
  have moved (phase : RWPhase) := count_update (· = RWPhase.reading) s.phase t phase
  have bounded : s.nReaders < 2 ^ 64 := by
    rw [before.counted]
    exact (count_le_card (· = RWPhase.reading) s.phase).trans_lt small
  cases here : s.phase t with
  | idle =>
    dsimp only
    split_ifs
    all_goals exact before.wander (by rw [here]; rfl) rfl (by rintro ⟨⟩) (by rintro ⟨⟩)
  | waitingShared =>
    have up := before.shared t here
    dsimp only
    split_ifs
    all_goals exact before.wander (by rw [here]; rfl) rfl (fun _ => up) (by rintro ⟨⟩)
  | waitingExclusive =>
    have blocked := before.exclusive t here
    dsimp only
    split_ifs
    all_goals exact before.wander (by rw [here]; rfl) rfl (by rintro ⟨⟩) fun _ => blocked
  | lockingShared =>
    dsimp only
    split_ifs with up
    · exact before.wander (by rw [here]; rfl) rfl (fun _ => up) (by rintro ⟨⟩)
    · have down := Bool.eq_false_iff.mpr up
      have free (u : T) : s.phase u ≠ .writing := (down ▸ before.claimed).down u
      have spare := count_lt_card (· = RWPhase.reading) s.phase (i := t) (by simp [here])
      have counted := before.counted
      refine ⟨⟨?_, ?_, ?_, ?_, ?_⟩, Or.inr ?_⟩
      · specialize moved .reading
        simp only [here, reduceCtorEq, if_false, if_true] at moved
        change increment 64 s.nReaders = count _ (update s.phase t .reading)
        rw [increment_eq (by omega)]
        omega
      · exact before.claimed.congr (apply_update_of_iff (p := (· = RWPhase.writing)) (by simp [here]))
      · exact fun raised => absurd raised up
      · intro u waiting
        rcases eq_or_ne u t with rfl | apart
        · simp [enter] at waiting
        · exact before.shared u (by simpa [enter, apart] using waiting)
      · intro u waiting
        left
        change increment 64 s.nReaders ≠ 0
        rw [increment_eq (by omega)]
        exact Nat.succ_ne_zero _
      · rw [enter, holds_update]
        apply SharedLock.Step.share
        · simp [holds, here, RWPhase.hold]
        · intro u exclusive
          apply free u
          cases there : s.phase u <;> simp [holds, there, RWPhase.hold] at exclusive
          rfl
  | lockingExclusive =>
    dsimp only
    split_ifs with free
    · obtain ⟨empty, down⟩ := free
      have none (u : T) : s.phase u ≠ .reading :=
        not_of_count_eq_zero (· = RWPhase.reading) s.phase (before.counted.symm.trans empty) u
      have noWriter (u : T) : s.phase u ≠ .writing := (down ▸ before.claimed).down u
      refine ⟨⟨?_, ?_, fun _ => empty, fun _ _ => rfl, fun _ _ => Or.inr rfl⟩, Or.inr ?_⟩
      · exact before.counted.trans (count_update_of_iff _ _ (by simp [here])).symm
      · apply (down ▸ before.claimed).raise (t := t)
        · simp [enter]
        · intro u apart
          simp [enter, apart]
      · rw [enter, holds_update]
        apply SharedLock.Step.lock
        intro u
        cases there : s.phase u with
        | reading => exact absurd there (none u)
        | writing => exact absurd there (noWriter u)
        | _ => simp [holds, there, RWPhase.hold]
    · apply before.wander (by rw [here]; rfl) rfl (by rintro ⟨⟩)
      intro _
      rcases Nat.eq_zero_or_pos s.nReaders with empty | positive
      · exact Or.inr (Bool.eq_false_or_eq_true s.writing |>.resolve_right fun down => free ⟨empty, down⟩)
      · exact Or.inl positive.ne'
  | reading =>
    have counted := before.counted
    have positive := count_pos (· = RWPhase.reading) s.phase here
    dsimp only [enter]
    refine ⟨Consistent.notifyAll ?_ ?_ ?_, Or.inr ?_⟩
    · specialize moved .idle
      simp only [here, reduceCtorEq, if_false, if_true] at moved
      rw [decrement_eq bounded (by omega)]
      dsimp only
      omega
    · exact before.claimed.congr (apply_update_of_iff (p := (· = RWPhase.writing)) (by simp [here]))
    · intro raised
      exact absurd (counted.symm.trans (before.alone raised)) positive.ne'
    · rw [holds_notifyAll]
      exact unlock_step s (by rw [here]; rintro ⟨⟩) rfl
  | writing =>
    have raised := (before.claimed.up here).1
    refine ⟨Consistent.notifyAll ?_ ?_ (by rintro ⟨⟩), Or.inr ?_⟩
    · exact before.counted.trans (count_update_of_iff _ _ (by simp [here])).symm
    · apply before.claimed.lower here
      · simp [enter]
      · intro u apart
        simp [enter, apart]
    · rw [holds_notifyAll]
      exact unlock_step s (by rw [here]; rintro ⟨⟩) rfl

theorem Run.refines (small : Fintype.card T < 2 ^ 64) (run : Run s) : s.Consistent ∧ SharedLock.Run s.holds := by
  apply Reach.refines holds _ _ run
  · rintro _ rfl
    exact ⟨consistent_new, fun _ => rfl⟩
  · rintro s _ before ⟨t, input, rfl⟩
    exact before.step small t input

/-- Whatever its threads do, an `RWLock` is a lock with shared and exclusive holders, and no wake-up is lost: a thread
waits only while the lock is held so that it cannot get it. -/
theorem rw_lock_refines (small : Fintype.card T < 2 ^ 64) (run : Run s) : SharedLock.Run s.holds ∧
    (∀ t u, s.phase t = .writing → s.phase u = .writing ∨ s.phase u = .reading → u = t) ∧
    (∀ t, s.phase t = .waitingShared → ∃ u, s.phase u = .writing) ∧
    ∀ t, s.phase t = .waitingExclusive → ∃ u, s.phase u = .writing ∨ s.phase u = .reading := by
  obtain ⟨after, seen⟩ := run.refines small
  have writer (raised : s.writing = true) : ∃ u, s.phase u = .writing := by
    rcases after.claimed with ⟨down, _⟩ | ⟨_, u, owner⟩
    · cases raised.symm.trans down
    · exact ⟨u, (owner u).mpr rfl⟩
  refine ⟨seen, fun t u writing held => ?_, fun t waiting => writer (after.shared t waiting), fun t waiting => ?_⟩
  · apply seen.exclusive t u
    · rw [RWLock.holds, writing]
      rfl
    · rcases held with here | here <;> simp [RWLock.holds, here, RWPhase.hold]
  · rcases after.exclusive t waiting with positive | raised
    · rw [after.counted] at positive
      obtain ⟨u, reading⟩ := exists_of_count_pos (· = RWPhase.reading) s.phase (Nat.pos_of_ne_zero positive)
      exact ⟨u, Or.inr reading⟩
    · obtain ⟨u, writing⟩ := writer raised
      exact ⟨u, Or.inl writing⟩

/-- A thread reads and another one waits to write. -/
theorem rw_lock_refines_twoThreads : ∃ s : RWLock (Fin 2), s.phase 0 = .reading ∧ s.phase 1 = .waitingExclusive ∧
    SharedLock.Run s.holds ∧ ∃ u, s.phase u = .writing ∨ s.phase u = .reading := by
  let steps : List (Fin 2 × Bool) := [(0, false), (0, false), (1, true), (1, true)]
  have reached (before : List (Fin 2 × Bool)) : Run (before.foldl (fun s a => s.step a.1 a.2) (new (T := Fin 2))) := by
    induction before using List.reverseRecOn with
    | nil => exact .init rfl
    | append_singleton before a ih =>
      rw [List.foldl_append]
      exact ih.step ⟨a.1, a.2, rfl⟩
  obtain ⟨seen, _, _, waits⟩ := rw_lock_refines (by decide) (reached steps)
  exact ⟨_, by decide, by decide, seen, waits 1 (by decide)⟩

end RWLock

end Gbp
