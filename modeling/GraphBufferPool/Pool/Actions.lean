import GraphBufferPool.Pool.BufferPool
import Mathlib

/-! # The calls of a pool as sequences of its states

Between two states of a fetch machine another call may run, so what holds between calls of one
thread is often too little. An action is one state of a fetch, one access to a frame by its holder,
or a flush; a call that returns is a sequence of actions.
-/

namespace Gbp.BufferPool

open Relation

/-- What a pool does without another call in between. -/
inductive Action
  | pin (page : Page)
  | begin (page : Page)
  | initing
  | evicting (m : ℕ)
  | read (page : Page) (m : ℕ)
  | publish (page : Page) (m : ℕ)
  | decRefCount (m : ℕ) (isWrite : Bool)
  | store (m : ℕ) (bytes : Bytes)
  | flushPage (page : Page) (bound : page.fpageId < fpageIdRange) (deleteFromMemory : Bool)

variable {R : Type} [Replacer R]

/-- The pool after an action. -/
def act (pool : BufferPool R) : Action → Except Stop (BufferPool R)
  | .pin page => do return (← pool.pin page).2
  | .begin page => do return (← pool.beginPhase page).2.2
  | .initing => do return (← pool.initingPhase).2
  | .evicting m => pool.evictingPhase m
  | .read page m => pool.readPage page m
  | .publish page m => pool.publish page m
  | .decRefCount m isWrite => .ok (pool.decRefCount m isWrite)
  | .store m bytes => .ok { pool with memory := Function.update pool.memory m bytes }
  | .flushPage page _ deleteFromMemory => do return (← pool.flushPage page deleteFromMemory).2

/-- Some action leads from one state to the other. -/
def Acts (pool pool' : BufferPool R) : Prop := ∃ action, pool.act action = .ok pool'

variable {pool pool' : BufferPool R} {page : Page}

theorem Acts.pin {result : Option ℕ × BufferPool R} (ran : pool.pin page = .ok result) :
    Acts pool result.2 :=
  ⟨.pin page, by simp only [act, ran]; rfl⟩

theorem Acts.begin {result : Bool × Phase × BufferPool R}
    (ran : pool.beginPhase page = .ok result) : Acts pool result.2.2 :=
  ⟨.begin page, by simp only [act, ran]; rfl⟩

theorem Acts.initing {result : Phase × BufferPool R} (ran : pool.initingPhase = .ok result) :
    Acts pool result.2 :=
  ⟨.initing, by simp only [act, ran]; rfl⟩

/-- The rounds of `FetchPageSync` are actions. -/
theorem fetchLoop_acts {fuel m : ℕ} {phase : Phase}
    (ran : fetchLoop page fuel phase pool = .ok (m, pool')) : ReflTransGen Acts pool pool' := by
  induction fuel generalizing phase pool with
  | zero => cases ran
  | succ fuel ih =>
    cases phase with
    | begin =>
      obtain ⟨_, began, ran⟩ := bind_eq_ok.mp ran
      exact .head (Acts.begin began) (ih ran)
    | initing =>
      obtain ⟨_, chosen, ran⟩ := bind_eq_ok.mp ran
      exact .head (Acts.initing chosen) (ih ran)
    | evicting k =>
      obtain ⟨_, evicted, ran⟩ := bind_eq_ok.mp ran
      exact .head ⟨.evicting k, evicted⟩ (ih ran)
    | loading k =>
      obtain ⟨_, read, ran⟩ := bind_eq_ok.mp ran
      obtain ⟨_, published, ran⟩ := bind_eq_ok.mp ran
      cases ran
      exact .head ⟨.read page _, read⟩ (.single ⟨.publish page _, published⟩)
    | finish k =>
      cases ran
      exact .refl
    | reBegin | loadingFinish => exact ih ran

/-- `FetchPageSync` is a sequence of actions. -/
theorem fetchPageSync_acts {fuel m : ℕ} (ran : fetchPageSync fuel page pool = .ok (m, pool')) :
    TransGen Acts pool pool' := by
  obtain ⟨⟨pinned, next⟩, pinning, ran⟩ := bind_eq_ok.mp ran
  refine .head' (Acts.pin pinning) ?_
  cases pinned with
  | none => exact fetchLoop_acts ran
  | some k =>
    cases ran
    exact .refl

end Gbp.BufferPool
