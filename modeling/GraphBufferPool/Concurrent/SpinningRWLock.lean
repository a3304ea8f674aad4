import GraphBufferPool.Lib.SharedLock
import GraphBufferPool.Lib.Update

/-! # The spinning reader-writer lock

`SpinningRWLock`, step by atomic step of finitely many threads: a reader counts itself before it looks for a writer,
a writer raises its flag before it looks for readers.
-/

namespace Gbp

open Function Machine SharedLock Counting

variable {T : Type} [Fintype T] [DecidableEq T]

/-- Where a thread is in the methods of `SpinningRWLock`. -/
inductive SpinPhase
  | idle
  | incrementing
  | testing
  | backing
  | yielding
  | reading
  | exchanging
  | draining
  | writing
deriving DecidableEq, Repr

/-- `SpinningRWLock`, and where each thread is. -/
structure SpinningRWLock (T : Type) where
  nReaders : ℕ
  writing : Bool
  phase : T → SpinPhase

namespace SpinningRWLock

/-- No thread has called the lock yet. -/
def new : SpinningRWLock T := ⟨0, false, fun _ => .idle⟩

/-- Thread `t` goes on to a phase. -/
def enter (s : SpinningRWLock T) (t : T) (phase : SpinPhase) : SpinningRWLock T :=
  { s with phase := update s.phase t phase }

/-- The next step of thread `t`; outside the lock it calls `WriteLock` or `ReadLock`, and with the lock it unlocks. -/
def step (s : SpinningRWLock T) (t : T) (forWrite : Bool) : SpinningRWLock T :=
  match s.phase t with
  | .idle => s.enter t (if forWrite then .exchanging else .incrementing)
  | .incrementing => { s with nReaders := increment 64 s.nReaders }.enter t .testing
  | .testing => s.enter t (if s.writing then .backing else .reading)
  | .backing => { s with nReaders := decrement 64 s.nReaders }.enter t .yielding
  | .yielding => s.enter t (if s.writing then .yielding else .incrementing)
  | .reading => { s with nReaders := decrement 64 s.nReaders }.enter t .idle
  | .exchanging => if s.writing then s else { s with writing := true }.enter t .draining
  | .draining => s.enter t (if s.nReaders = 0 then .writing else .draining)
  | .writing => { s with writing := false }.enter t .idle

/-- Any interleaving of the steps of the threads. -/
abbrev Run (s : SpinningRWLock T) : Prop := Reach (· = new) (fun s s' => ∃ t forWrite, s' = s.step t forWrite) s

/-- How a thread in this phase holds the lock. -/
def hold : SpinPhase → Hold
  | .reading => .shared
  | .writing => .exclusive
  | _ => .none

/-- How each thread holds the lock. -/
def holds (s : SpinningRWLock T) (t : T) : Hold := hold (s.phase t)

/-- The thread is counted in `n_readers`. -/
def Counted (phase : SpinPhase) : Prop := phase = .testing ∨ phase = .backing ∨ phase = .reading

instance : DecidablePred Counted := fun _ => instDecidableOr

/-- The thread has set `writing`. -/
def Claims (phase : SpinPhase) : Prop := phase = .draining ∨ phase = .writing

/-- The counter and the flag are those of the threads, and a writer has waited for the readers. -/
structure Consistent (s : SpinningRWLock T) : Prop where
  counted : s.nReaders = count Counted s.phase
  claimed : Claimed s.writing fun t => Claims (s.phase t)
  drained : ∀ t, s.phase t = .writing → ∀ u, s.phase u ≠ .reading

omit [DecidableEq T] in
theorem consistent_new : Consistent (new : SpinningRWLock T) where
  counted := by simp [new, count, Counted]
  claimed := Or.inl ⟨rfl, by simp [new, Claims]⟩
  drained := by simp [new]

variable {s : SpinningRWLock T} {t : T} {n : ℕ} {raised : Bool} {phase : SpinPhase}

/-- A step that is consistent, and seen at the lock or not seen at all. -/
def Refining (s s' : SpinningRWLock T) : Prop :=
  s'.Consistent ∧ (s'.holds = s.holds ∨ SharedLock.Step s.holds s'.holds)

omit [Fintype T] in
theorem holds_update : holds ⟨n, raised, update s.phase t phase⟩ = update s.holds t (hold phase) := by
  funext u
  rcases eq_or_ne u t with rfl | apart
  · simp [holds]
  · simp [holds, apart]

section view
variable (s)

omit [Fintype T] in
theorem holds_update_same (same : hold phase = hold (s.phase t)) : holds ⟨n, raised, update s.phase t phase⟩ = s.holds := by
  rw [holds_update, same]
  exact update_eq_self t s.holds

omit [Fintype T] in
theorem unlock_step (held : hold (s.phase t) ≠ .none) (out : hold phase = .none) :
    SharedLock.Step s.holds (holds ⟨n, raised, update s.phase t phase⟩) := by
  rw [holds_update, out]
  exact .unlock held

end view

/-- What a step of `t` has to keep. -/
theorem Consistent.move (before : s.Consistent)
    (counted : n + (if Counted (s.phase t) then 1 else 0) = s.nReaders + if Counted phase then 1 else 0)
    (claimed : Claimed raised fun u => Claims (update s.phase t phase u))
    (writes : phase = .writing → ∀ u, s.phase u ≠ .reading) (reads : phase = .reading → ∀ u, s.phase u ≠ .writing) :
    Consistent ⟨n, raised, update s.phase t phase⟩ where
  counted := by
    have moved := count_update Counted s.phase t phase
    rw [before.counted] at counted
    dsimp only
    omega
  claimed := claimed
  drained := by
    intro v writing u reading
    dsimp only at writing reading
    rcases eq_or_ne v t with rfl | apart
    · rw [update_self] at writing
      rcases eq_or_ne u v with rfl | other
      · rw [update_self, writing] at reading
        cases reading
      · rw [update_of_ne other] at reading
        exact writes writing u reading
    · rw [update_of_ne apart] at writing
      rcases eq_or_ne u t with rfl | other
      · rw [update_self] at reading
        exact reads reading v writing
      · rw [update_of_ne other] at reading
        exact before.drained v writing u reading

/-- A step that moves neither the counter nor the flag nor the lock. -/
theorem Consistent.wander (before : s.Consistent) (counted : Counted (s.phase t) ↔ Counted phase)
    (claims : Claims phase ↔ Claims (s.phase t)) (out : hold (s.phase t) = .none) (out' : hold phase = .none) :
    Refining s (s.enter t phase) := by
  refine ⟨before.move ?_ ?_ ?_ ?_, Or.inl ?_⟩
  · simp only [counted]
  · exact before.claimed.congr fun u => apply_update_of_iff claims u
  · rintro rfl
    cases out'
  · rintro rfl
    cases out'
  · exact holds_update_same s (out'.trans out.symm)

omit [DecidableEq T] in
theorem Consistent.bounded (before : s.Consistent) (small : Fintype.card T < 2 ^ 64) : s.nReaders < 2 ^ 64 := by
  rw [before.counted]
  exact (count_le_card Counted s.phase).trans_lt small

/-- Every step of a thread. -/
theorem Consistent.step (before : s.Consistent) (small : Fintype.card T < 2 ^ 64) (t : T) (forWrite : Bool) :
    Refining s (s.step t forWrite) := by
  unfold SpinningRWLock.step
  cases here : s.phase t with
  | idle =>
    dsimp only
    split_ifs
    all_goals exact before.wander (by simp [here, Counted]) (by simp [here, Claims]) (by rw [here]; rfl) rfl
  | yielding =>
    dsimp only
    split_ifs
    all_goals exact before.wander (by simp [here, Counted]) (by simp [here, Claims]) (by rw [here]; rfl) rfl
  | incrementing =>
    dsimp only
    have room : count Counted s.phase < 2 ^ 64 := (count_le_card Counted s.phase).trans_lt small
    have spare := count_lt_card Counted s.phase (show ¬ Counted (s.phase t) by simp [here, Counted])
    refine ⟨before.move ?_ (before.claimed.congr (apply_update_of_iff (by simp [here, Claims]))) (by rintro ⟨⟩) (by rintro ⟨⟩), Or.inl ?_⟩
    · rw [increment_eq (by rw [before.counted]; omega)]
      simp [here, Counted]
    · exact holds_update_same s (by rw [here]; rfl)
  | testing =>
    dsimp only
    split_ifs with raised
    · exact before.wander (by simp [here, Counted]) (by simp [here, Claims]) (by rw [here]; rfl) rfl
    · have down := Bool.eq_false_iff.mpr raised
      have free (u : T) : ¬ Claims (s.phase u) := (down ▸ before.claimed).down u
      refine ⟨before.move ?_ (before.claimed.congr (apply_update_of_iff (by simp [here, Claims]))) (by rintro ⟨⟩) ?_, Or.inr ?_⟩
      · simp [here, Counted]
      · exact fun _ u writing => free u (Or.inr writing)
      · rw [enter, holds_update]
        apply SharedLock.Step.share
        · rw [holds, here]
          rfl
        · intro u exclusive
          apply free u
          cases there : s.phase u <;> simp [holds, there, hold] at exclusive
          exact Or.inr rfl
  | backing =>
    dsimp only
    have positive := count_pos Counted s.phase (show Counted (s.phase t) by simp [here, Counted])
    refine ⟨before.move ?_ (before.claimed.congr (apply_update_of_iff (by simp [here, Claims]))) (by rintro ⟨⟩) (by rintro ⟨⟩), Or.inl ?_⟩
    · rw [decrement_eq (before.bounded small) (by rw [before.counted]; exact positive)]
      simp only [here, Counted]
      rw [before.counted]
      simp
      omega
    · exact holds_update_same s (by rw [here]; rfl)
  | reading =>
    dsimp only
    have positive := count_pos Counted s.phase (show Counted (s.phase t) by simp [here, Counted])
    refine ⟨before.move ?_ (before.claimed.congr (apply_update_of_iff (by simp [here, Claims]))) (by rintro ⟨⟩) (by rintro ⟨⟩), Or.inr ?_⟩
    · rw [decrement_eq (before.bounded small) (by rw [before.counted]; exact positive)]
      simp only [here, Counted]
      rw [before.counted]
      simp
      omega
    · exact unlock_step s (by simp [here, hold]) rfl
  | exchanging =>
    dsimp only
    split_ifs with raised
    · exact ⟨before, Or.inl rfl⟩
    · have down := Bool.eq_false_iff.mpr raised
      refine ⟨before.move ?_ ?_ (by rintro ⟨⟩) (by rintro ⟨⟩), Or.inl ?_⟩
      · simp [here, Counted]
      · apply (down ▸ before.claimed).raise (t := t)
        · simp [Claims]
        · intro u apart
          simp [apart]
      · exact holds_update_same s (by rw [here]; rfl)
  | draining =>
    dsimp only
    split_ifs with empty
    · have none (u : T) : ¬ Counted (s.phase u) :=
        not_of_count_eq_zero Counted s.phase (before.counted.symm.trans empty) u
      have owner := (before.claimed.up (t := t) (Or.inl here)).2
      refine ⟨before.move ?_ (before.claimed.congr (apply_update_of_iff (by simp [here, Claims]))) ?_ (by rintro ⟨⟩), Or.inr ?_⟩
      · simp [here, Counted]
      · exact fun _ u reading => none u (by simp [reading, Counted])
      · rw [enter, holds_update]
        apply SharedLock.Step.lock
        intro u
        cases there : s.phase u with
        | reading => exact absurd (by simp [there, Counted]) (none u)
        | writing =>
          obtain rfl := (owner u).mp (Or.inr there)
          cases here.symm.trans there
        | _ => simp [holds, there, hold]
    · exact before.wander (by simp [here, Counted]) (by simp [here, Claims]) (by rw [here]; rfl) rfl
  | writing =>
    dsimp only
    refine ⟨before.move ?_ ?_ (by rintro ⟨⟩) (by rintro ⟨⟩), Or.inr ?_⟩
    · simp [here, Counted]
    · apply before.claimed.lower (t := t)
      · exact Or.inr here
      · simp [Claims]
      · intro u apart
        simp [apart]
    · exact unlock_step s (by simp [here, hold]) rfl

theorem Run.refines (small : Fintype.card T < 2 ^ 64) (run : Run s) : s.Consistent ∧ SharedLock.Run s.holds := by
  apply Reach.refines holds _ _ run
  · rintro _ rfl
    exact ⟨consistent_new, fun _ => rfl⟩
  · rintro s _ before ⟨t, forWrite, rfl⟩
    exact before.step small t forWrite

/-- Whatever its threads do, a `SpinningRWLock` is a lock with shared and exclusive holders: each step is one of that
lock or not seen there, a writer is alone, and once no thread uses the lock it is as it was before its first use. -/
theorem spinning_lock_refines (small : Fintype.card T < 2 ^ 64) (run : Run s) : SharedLock.Run s.holds ∧
    (∀ t forWrite, (s.step t forWrite).holds = s.holds ∨ SharedLock.Step s.holds (s.step t forWrite).holds) ∧
    (∀ t u, s.phase t = .writing → s.phase u = .writing ∨ s.phase u = .reading → u = t) ∧
    ((∀ t, s.phase t = .idle) → s = new) := by
  obtain ⟨after, seen⟩ := run.refines small
  refine ⟨seen, fun t forWrite => (after.step small t forWrite).2, fun t u writing holds => ?_, fun idle => ?_⟩
  · apply seen.exclusive t u
    · rw [SpinningRWLock.holds, writing]
      rfl
    · rcases holds with here | here <;> simp [SpinningRWLock.holds, here, hold]
  · have phase : s.phase = fun _ => .idle := funext idle
    have nReaders : s.nReaders = 0 := by
      rw [after.counted, phase]
      simp [count, Counted]
    have writing : s.writing = false := by
      rcases after.claimed with ⟨down, _⟩ | ⟨_, t, owner⟩
      · exact down
      · have claims := (owner t).mpr rfl
        simp [idle t, Claims] at claims
    obtain ⟨_, _, _⟩ := s
    simp_all [new]

/-- A writer has raised its flag while one thread reads and another one backs off. -/
theorem spinning_lock_refines_threeThreads : ∃ s : SpinningRWLock (Fin 3), s.phase 0 = .reading ∧
    s.phase 1 = .draining ∧ s.phase 2 = .backing ∧ SharedLock.Run s.holds := by
  let steps : List (Fin 3 × Bool) := [(0, false), (0, false), (0, false), (1, true), (1, true), (1, true), (2, false),
    (2, false), (2, false)]
  have reached (before : List (Fin 3 × Bool)) : Run (before.foldl (fun s a => s.step a.1 a.2) (new (T := Fin 3))) := by
    induction before using List.reverseRecOn with
    | nil => exact .init rfl
    | append_singleton before a ih =>
      rw [List.foldl_append]
      exact ih.step ⟨a.1, a.2, rfl⟩
  exact ⟨_, by decide, by decide, by decide, (spinning_lock_refines (by decide) (reached steps)).1⟩

end SpinningRWLock

end Gbp
