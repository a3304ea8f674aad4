import GraphBufferPool.Lib.Runs
import GraphBufferPool.Pool.PageTable

/-! # The edge lock of a vertex

`InsertEdge` and `InsertEdgeList` on one `MutableAdjlist`, step by atomic step of any number of threads.
Their loop `while (lock_.compare_exchange_weak(old_data, 1));` goes on while the exchange succeeds, so a
thread leaves it with a failed exchange: the one after its own success, or its first one where another
thread has the lock.
-/

namespace Gbp

/-- `MutableAdjlist`; `size_` and `capacity_` have 32 bits, `lock_` 16. -/
structure MutableAdjlist where
  size : ℕ
  capacity : ℕ
  lock : ℕ
  startIdx : ℕ
deriving DecidableEq, Repr

namespace MutableAdjlist

/-- `init`. -/
def init (startIdx cap size : ℕ) : MutableAdjlist := ⟨size % 2 ^ 32, cap % 2 ^ 32, 0, startIdx⟩

/-- `lock_.compare_exchange_weak(oldData, 1)`: whether it exchanged, `oldData` after it, and the item. -/
def compareExchangeWeak (item : MutableAdjlist) (spurious : Bool) (oldData : ℕ) :
    Bool × ℕ × MutableAdjlist :=
  if item.lock = oldData ∧ spurious = false then (true, oldData, { item with lock := 1 })
  else (false, item.lock, item)

/-- `size_.fetch_add(count)`. -/
def fetchAdd (item : MutableAdjlist) (count : ℕ) : ℕ × MutableAdjlist :=
  (item.size, { item with size := (item.size + count) % 2 ^ 32 })

/-- `lock_.store(0)`. -/
def unlock (item : MutableAdjlist) : MutableAdjlist := { item with lock := 0 }

end MutableAdjlist

/-- Where a thread is in an insertion of `count` edges; `InsertEdge` inserts one. Whether the thread has
changed the lock from 0 to 1 is a ghost. -/
inductive InsertPhase
  | outside
  | acquiring (count oldData : ℕ) (took : Bool)
  | adding (count : ℕ) (took : Bool)
  | checking (idxNew : ℕ) (took : Bool)
  | writing (idxNew : ℕ) (took : Bool)
deriving DecidableEq, Repr

namespace InsertPhase

/-- Between the end of the loop and the store of 0. -/
def inside : InsertPhase → Bool
  | adding .. | checking .. | writing .. => true
  | _ => false

/-- The thread changed the lock from 0 to 1 in this insertion. -/
def took : InsertPhase → Bool
  | outside => false
  | acquiring _ _ took | adding _ took | checking _ took | writing _ took => took

end InsertPhase

/-- The item of a vertex and what the threads do with it. -/
structure EdgeLock (T : Type) where
  item : MutableAdjlist
  phase : T → InsertPhase

/-- The next step of a thread: outside it starts an insertion of `count` edges, in its loop its
exchange may fail spuriously. -/
structure ThreadStep (T : Type) where
  thread : T
  count : ℕ
  spurious : Bool

namespace EdgeLock

variable {T : Type} [DecidableEq T]

/-- No thread is inserting. -/
def new (startIdx cap size : ℕ) : EdgeLock T := ⟨.init startIdx cap size, fun _ => .outside⟩

/-- A thread moves on with the item. -/
def advance (s : EdgeLock T) (t : T) (item : MutableAdjlist) (phase : InsertPhase) : EdgeLock T :=
  ⟨item, Function.update s.phase t phase⟩

/-- One step of a thread. A failed assertion ends the process. -/
def step (s : EdgeLock T) (a : ThreadStep T) : Except Stop (EdgeLock T) :=
  match s.phase a.thread with
  | .outside => .ok (s.advance a.thread s.item (.acquiring a.count 0 false))
  | .acquiring count oldData took =>
    let (exchanged, oldData', item) := s.item.compareExchangeWeak a.spurious oldData
    if exchanged then
      .ok (s.advance a.thread item (.acquiring count oldData' (took || decide (s.item.lock = 0))))
    else .ok (s.advance a.thread item (.adding count took))
  | .adding count took =>
    let (idxNew, item) := s.item.fetchAdd count
    .ok (s.advance a.thread item (.checking idxNew took))
  | .checking idxNew took =>
    if s.item.capacity ≤ idxNew then .error .assertion
    else .ok (s.advance a.thread s.item (.writing (idxNew + s.item.startIdx) took))
  | .writing _ _ => .ok (s.advance a.thread s.item.unlock .outside)

/-- The lock is exclusive: one thread at most is inside, it took the lock itself, and a free lock is
taken by the next exchange, after which the loop ends with the next one. -/
structure Exclusive (s : EdgeLock T) : Prop where
  one : ∀ t u, (s.phase t).inside = true → (s.phase u).inside = true → t = u
  own : ∀ t, (s.phase t).inside = true → (s.phase t).took = true
  takes : ∀ t count oldData took, s.phase t = .acquiring count oldData took → s.item.lock = 0 →
    ∃ s', s.step ⟨t, 0, false⟩ = .ok s' ∧ (s'.phase t).took = true
  leaves : ∀ t count oldData, s.phase t = .acquiring count oldData true → ∀ spurious,
    ∃ s', s.step ⟨t, 0, spurious⟩ = .ok s' ∧ (s'.phase t).inside = true

/-- An exchange of a thread that has not taken the lock yet finds it free and does not fail
spuriously. -/
def TakesAtOnce (s : EdgeLock T) (a : ThreadStep T) : Prop :=
  ∀ count oldData, s.phase a.thread = .acquiring count oldData false →
    s.item.lock = 0 ∧ a.spurious = false

/-- The lock is 1 exactly while a thread that took it has not stored 0, and the expected value stays 0. -/
structure Tracked (s : EdgeLock T) : Prop where
  expected : ∀ t count oldData took, s.phase t = .acquiring count oldData took → oldData = 0
  holder : s.item.lock = 0 ∧ (∀ t, (s.phase t).took = false) ∨
    s.item.lock = 1 ∧ ∃ t, ∀ u, (s.phase u).took = true ↔ u = t

omit [DecidableEq T] in
theorem tracked_new (startIdx cap size : ℕ) : Tracked (new (T := T) startIdx cap size) :=
  ⟨nofun, Or.inl ⟨rfl, fun _ => rfl⟩⟩

variable {s s' : EdgeLock T} {a : ThreadStep T}

@[simp] theorem advance_item (t : T) (item : MutableAdjlist) (phase : InsertPhase) :
    (s.advance t item phase).item = item := rfl

@[simp] theorem advance_self (t : T) (item : MutableAdjlist) (phase : InsertPhase) :
    (s.advance t item phase).phase t = phase := Function.update_self ..

theorem advance_other {t u : T} (other : u ≠ t) (item : MutableAdjlist) (phase : InsertPhase) :
    (s.advance t item phase).phase u = s.phase u := Function.update_of_ne other ..

/-- What an exchange does while the expected value is 0. -/
theorem step_acquiring {count : ℕ} {took : Bool} (here : s.phase a.thread = .acquiring count 0 took) :
    s.item.lock = 0 ∧ a.spurious = false ∧
        s.step a = .ok (s.advance a.thread { s.item with lock := 1 } (.acquiring count 0 true)) ∨
      ¬ (s.item.lock = 0 ∧ a.spurious = false) ∧
        s.step a = .ok (s.advance a.thread s.item (.adding count took)) := by
  by_cases free : s.item.lock = 0 ∧ a.spurious = false
  · refine Or.inl ⟨free.1, free.2, ?_⟩
    simp [step, here, MutableAdjlist.compareExchangeWeak, free]
  · refine Or.inr ⟨free, ?_⟩
    simp [step, here, MutableAdjlist.compareExchangeWeak, free]

/-- Where the lock is tracked, it is exclusive if the threads inside took it. -/
theorem Tracked.exclusive_iff (tracked : Tracked s) :
    Exclusive s ↔ ∀ t, (s.phase t).inside = true → (s.phase t).took = true := by
  refine ⟨Exclusive.own, fun own => ⟨fun t u first second => ?_, own, ?_, ?_⟩⟩
  · rcases tracked.holder with ⟨_, none⟩ | ⟨_, holder, only⟩
    · have := own t first
      rw [none t] at this
      cases this
    · exact ((only t).mp (own t first)).trans ((only u).mp (own u second)).symm
  · intro t count oldData took here free
    obtain rfl := tracked.expected t count oldData took here
    rcases step_acquiring (a := ⟨t, 0, false⟩) here with ⟨_, _, ran⟩ | ⟨busy, _⟩
    · exact ⟨_, ran, by rw [advance_self]; rfl⟩
    · exact absurd ⟨free, rfl⟩ busy
  · intro t count oldData here spurious
    obtain rfl := tracked.expected t count oldData true here
    have held : s.item.lock = 1 := by
      rcases tracked.holder with ⟨_, none⟩ | ⟨held, _⟩
      · have := none t
        rw [here] at this
        cases this
      · exact held
    rcases step_acquiring (a := ⟨t, 0, spurious⟩) here with ⟨free, _, _⟩ | ⟨_, ran⟩
    · omega
    · exact ⟨_, ran, by rw [advance_self]; rfl⟩

/-- A thread moves on without a change of the lock. -/
theorem Tracked.advance (tracked : Tracked s) {t : T} {item : MutableAdjlist} {phase : InsertPhase}
    (lock : item.lock = s.item.lock) (took : phase.took = (s.phase t).took)
    (expected : ∀ count oldData took, phase = .acquiring count oldData took → oldData = 0) :
    Tracked (s.advance t item phase) := by
  have same (u : T) : ((s.advance t item phase).phase u).took = (s.phase u).took := by
    by_cases here : u = t
    · rw [here, advance_self, took]
    · rw [advance_other here]
  refine ⟨fun u count oldData took at_u => ?_, ?_⟩
  · by_cases here : u = t
    · rw [here, advance_self] at at_u
      exact expected count oldData took at_u
    · rw [advance_other here] at at_u
      exact tracked.expected u count oldData took at_u
  · simp only [advance_item, lock, same]
    exact tracked.holder

/-- The thread that holds the lock gives it back. -/
theorem Tracked.unlock (tracked : Tracked s) {t : T} (took : (s.phase t).took = true) :
    Tracked (s.advance t s.item.unlock .outside) := by
  refine ⟨fun u count oldData took at_u => ?_, Or.inl ⟨rfl, fun u => ?_⟩⟩
  · by_cases here : u = t
    · rw [here, advance_self] at at_u
      cases at_u
    · rw [advance_other here] at at_u
      exact tracked.expected u count oldData took at_u
  · by_cases here : u = t
    · rw [here, advance_self]
      rfl
    · rw [advance_other here]
      rcases tracked.holder with ⟨_, none⟩ | ⟨_, holder, only⟩
      · exact none u
      · obtain rfl := (only t).mp took
        exact Bool.eq_false_iff.mpr fun also => here ((only u).mp also)

/-- A thread takes the free lock. -/
theorem Tracked.lock (tracked : Tracked s) {t : T} (free : s.item.lock = 0) (count : ℕ) :
    Tracked (s.advance t { s.item with lock := 1 } (.acquiring count 0 true)) := by
  refine ⟨fun u count oldData took at_u => ?_, Or.inr ⟨rfl, t, fun u => ?_⟩⟩
  · by_cases here : u = t
    · rw [here, advance_self] at at_u
      cases at_u
      rfl
    · rw [advance_other here] at at_u
      exact tracked.expected u count oldData took at_u
  · by_cases here : u = t
    · rw [here, advance_self]
      exact iff_of_true rfl rfl
    · rw [advance_other here]
      rcases tracked.holder with ⟨_, none⟩ | ⟨held, _⟩
      · exact iff_of_false (by rw [none u]; exact Bool.false_ne_true) here
      · omega

/-- The threads inside still took the lock if the one that moved did. -/
theorem own_advance_iff (own : ∀ t, (s.phase t).inside = true → (s.phase t).took = true) {t : T}
    {item : MutableAdjlist} {phase : InsertPhase} :
    (∀ u, ((s.advance t item phase).phase u).inside = true →
        ((s.advance t item phase).phase u).took = true) ↔
      (phase.inside = true → phase.took = true) := by
  constructor
  · intro all
    have here := all t
    rwa [advance_self] at here
  · intro moved u
    by_cases here : u = t
    · rw [here, advance_self]
      exact moved
    · rw [advance_other here]
      exact own u

omit [DecidableEq T] in
/-- A thread inside makes no exchange. -/
theorem takesAtOnce_inside (inside : (s.phase a.thread).inside = true) : TakesAtOnce s a := by
  intro count oldData here
  rw [here] at inside
  cases inside

/-- One step from a state with an exclusive lock keeps track of it, and keeps it exclusive exactly where an
exchange takes it at once. -/
theorem Tracked.step (tracked : Tracked s) (exclusive : Exclusive s) (ran : s.step a = .ok s') :
    Tracked s' ∧ (Exclusive s' ↔ TakesAtOnce s a) := by
  have own := exclusive.own
  cases here : s.phase a.thread with
  | outside =>
    simp only [EdgeLock.step, here] at ran
    cases ran
    have next : Tracked (s.advance a.thread s.item (.acquiring a.count 0 false)) :=
      tracked.advance rfl (by rw [here]; rfl) (by rintro _ _ _ ⟨⟩; rfl)
    refine ⟨next, next.exclusive_iff.trans ((own_advance_iff own).trans (iff_of_true nofun ?_))⟩
    intro count oldData same
    rw [here] at same
    cases same
  | acquiring count oldData took =>
    obtain rfl := tracked.expected _ _ _ _ here
    rcases step_acquiring here with ⟨free, steady, moved⟩ | ⟨busy, moved⟩
    · cases moved.symm.trans ran
      have next := tracked.lock (t := a.thread) free count
      exact ⟨next, next.exclusive_iff.trans
        ((own_advance_iff own).trans (iff_of_true nofun fun _ _ _ => ⟨free, steady⟩))⟩
    · cases moved.symm.trans ran
      have next : Tracked (s.advance a.thread s.item (.adding count took)) :=
        tracked.advance rfl (by rw [here]; rfl) nofun
      refine ⟨next, next.exclusive_iff.trans ((own_advance_iff own).trans ?_)⟩
      cases took with
      | true =>
        refine iff_of_true (fun _ => rfl) fun count' oldData same => ?_
        rw [here] at same
        cases same
      | false => exact iff_of_false (fun all => Bool.false_ne_true (all rfl)) fun all => busy (all _ _ here)
  | adding count took =>
    simp only [EdgeLock.step, here, MutableAdjlist.fetchAdd] at ran
    cases ran
    have next : Tracked (s.advance a.thread (s.item.fetchAdd count).2 (.checking s.item.size took)) :=
      tracked.advance rfl (by rw [here]; rfl) nofun
    have held : took = true := by
      have entered := own a.thread (by rw [here]; rfl)
      rw [here] at entered
      exact entered
    exact ⟨next, next.exclusive_iff.trans
      ((own_advance_iff own).trans (iff_of_true (fun _ => held) (takesAtOnce_inside (by rw [here]; rfl))))⟩
  | checking idxNew took =>
    simp only [EdgeLock.step, here] at ran
    split_ifs at ran with room
    cases ran
    have next : Tracked (s.advance a.thread s.item (.writing (idxNew + s.item.startIdx) took)) :=
      tracked.advance rfl (by rw [here]; rfl) nofun
    have held : took = true := by
      have entered := own a.thread (by rw [here]; rfl)
      rw [here] at entered
      exact entered
    exact ⟨next, next.exclusive_iff.trans
      ((own_advance_iff own).trans (iff_of_true (fun _ => held) (takesAtOnce_inside (by rw [here]; rfl))))⟩
  | writing idxNew took =>
    simp only [EdgeLock.step, here] at ran
    cases ran
    have next := tracked.unlock (own a.thread (by rw [here]; rfl))
    exact ⟨next, next.exclusive_iff.trans
      ((own_advance_iff own).trans (iff_of_true nofun (takesAtOnce_inside (by rw [here]; rfl))))⟩

/-- In every interleaving of any number of insertions the lock is exclusive throughout if and only if every
exchange of a thread that has not taken the lock takes it. -/
theorem edge_lock_exclusive_iff (startIdx cap size : ℕ) (steps : List (ThreadStep T)) :
    Runs.Always step Exclusive (new startIdx cap size) steps ↔
      Runs.Each step TakesAtOnce (new startIdx cap size) steps := by
  have start : Tracked (new (T := T) startIdx cap size) := tracked_new ..
  have exclusive : Exclusive (new (T := T) startIdx cap size) := start.exclusive_iff.mpr nofun
  have keeps : ∀ (s : EdgeLock T) a s', Tracked s → Exclusive s → True → s.step a = .ok s' →
      Tracked s' ∧ (Exclusive s' ↔ TakesAtOnce s a) :=
    fun _ _ _ tracked exclusive _ ran => tracked.step exclusive ran
  exact Runs.always_iff_each keeps start exclusive (Runs.each_of_forall fun _ _ => trivial)

/-- Two threads insert an edge each. The first takes the lock and leaves its loop with the failed exchange
after it, and so does the second with its first exchange. -/
theorem edge_lock_not_exclusive :
    ¬ ∀ steps : List (ThreadStep Bool), Runs.Always step Exclusive (new 0 4 0) steps := by
  intro always
  have run := always [⟨false, 1, false⟩, ⟨true, 1, false⟩, ⟨false, 1, false⟩, ⟨false, 1, false⟩,
    ⟨true, 1, false⟩]
  have both := run.final rfl
  exact Bool.false_ne_true (both.one false true rfl rfl)

end EdgeLock

end Gbp
