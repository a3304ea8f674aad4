import GraphBufferPool.Block.BufferBlock
import GraphBufferPool.Lib.Holdings
import GraphBufferPool.Lib.Reach

/-! # Blocks in variables

Block variables are constructed, filled, copied, moved, assigned and destroyed. A copy takes the
pages of its source as a move does, so at any time every page has one variable that holds it, and it
is released when that variable is destroyed or overwritten.
-/

namespace Gbp

open Function Holdings Machine

/-- The variables alive, the pages inserted so far and the references released so far. -/
structure Variables (V : Type) where
  block : V → BufferBlock
  alive : Finset V
  inserted : Multiset BlockPage
  released : Multiset Release

/-- What happens to a variable: its declaration, `InsertPage`, the copy and move constructors, the
copy and move assignments, and its destruction. -/
inductive BlockOp (V : Type)
  | default (v : V)
  | new (v : V) (size pageNum : ℕ)
  | ofBuffer (v : V) (size data : ℕ)
  | insertPage (v : V) (idx : ℕ) (page : BlockPage)
  | construct (v src : V)
  | assign (v src : V)
  | destroy (v : V)

namespace Variables

variable {V : Type} [DecidableEq V]

/-- The declaration of a variable. -/
def declare (s : Variables V) (v : V) (block : BufferBlock) : Variables V :=
  { s with block := update s.block v block, alive := insert v s.alive }

/-- `Move(src, dst)` of variables, which may be the same one. -/
def move (s : Variables V) (src dst : V) : Except Stop (Variables V) := do
  let (released, freed) ← (s.block dst).free
  let block := update s.block dst freed
  let block := update block dst (block src)
  let block := update block src (block src).emptied
  return { s with block := block, released := s.released + released }

def step (s : Variables V) : BlockOp V → Except Stop (Variables V)
  | .default v => .ok (s.declare v .empty)
  | .new v size pageNum => .ok (s.declare v (.new size pageNum))
  | .ofBuffer v size data => .ok (s.declare v (.ofBuffer size data))
  | .insertPage v idx page => do
    let block ← (s.block v).insertPage idx page
    return { s with block := update s.block v block, inserted := page ::ₘ s.inserted }
  | .construct v src => (s.declare v .empty).move src v
  | .assign v src => s.move src v
  | .destroy v => do
    let (released, freed) ← (s.block v).free
    return { s with
      block := update s.block v freed
      alive := s.alive.erase v
      released := s.released + released }

/-- The operations of a program that inserts each page of a block once, before the block is
destroyed or overwritten. -/
inductive Allowed (s : Variables V) : BlockOp V → Prop
  | default {v : V} (fresh : v ∉ s.alive) : Allowed s (.default v)
  | new {v : V} {size pageNum : ℕ} (fresh : v ∉ s.alive) (bytes : 0 < size) (some : 1 ≤ pageNum) :
      Allowed s (.new v size pageNum)
  | ofBuffer {v : V} {size data : ℕ} (fresh : v ∉ s.alive) : Allowed s (.ofBuffer v size data)
  | insertPage {v : V} {idx : ℕ} {page : BlockPage} (live : v ∈ s.alive)
      (awaits : (s.block v).slots[idx]? = some none) : Allowed s (.insertPage v idx page)
  | construct {v src : V} (fresh : v ∉ s.alive) (live : src ∈ s.alive) : Allowed s (.construct v src)
  | assign {v src : V} (live : v ∈ s.alive) (source : src ∈ s.alive)
      (complete : none ∉ (s.block v).slots) : Allowed s (.assign v src)
  | destroy {v : V} (live : v ∈ s.alive) (complete : none ∉ (s.block v).slots) : Allowed s (.destroy v)

/-- No variable yet. -/
def Start (s : Variables V) : Prop := s.alive = ∅ ∧ s.inserted = 0 ∧ s.released = 0

/-- The runs of such programs. -/
abbrev Run (s : Variables V) : Prop :=
  Reach Start (fun s s' => ∃ op, s.Allowed op ∧ s.step op = .ok s') s

/-- The pages that the variables hold. -/
def held (s : Variables V) : Multiset BlockPage := ∑ v ∈ s.alive, (s.block v).pages

/-- The variable whose block an operation destroys or overwrites. -/
def overwritten : BlockOp V → Option V
  | .assign v _ | .destroy v => some v
  | _ => none

/-- What every run keeps: a block without bytes has no page, and every reference inserted is released
or held. -/
structure Balanced (s : Variables V) : Prop where
  sized : ∀ v ∈ s.alive, (s.block v).size = 0 → (s.block v).slots = []
  balance : s.inserted.map BlockPage.release = s.released + s.held.map BlockPage.release

variable {s s' : Variables V} {v src : V}

omit [DecidableEq V] in
theorem held_eq_total (s : Variables V) : s.held = total BufferBlock.pages s.block s.alive := rfl

/-- A new variable adds its pages. -/
theorem held_declare (fresh : v ∉ s.alive) (block : BufferBlock) :
    (s.declare v block).held = s.held + block.pages := by
  rw [held_eq_total, held_eq_total]
  exact total_insert fresh block

omit [DecidableEq V] in
/-- `free` of a live variable releases exactly its pages. -/
theorem Balanced.free (balanced : s.Balanced) (live : v ∈ s.alive) (complete : none ∉ (s.block v).slots) :
    ∃ released, (s.block v).free = .ok (released, (s.block v).emptied) ∧
      (released : Multiset Release) = (s.block v).pages.map BlockPage.release := by
  obtain ⟨released, ran⟩ := BufferBlock.exists_free complete
  obtain ⟨_, given, none⟩ := BufferBlock.free_eq_ok ran
  refine ⟨released, ran, ?_⟩
  by_cases zero : (s.block v).size = 0
  · rw [none zero, BufferBlock.pages, balanced.sized v live zero]
    rfl
  · exact given zero

/-- `Move` releases the pages of its destination and hands it those of its source. -/
theorem Balanced.move (balanced : s.Balanced) (live : v ∈ s.alive) (source : src ∈ s.alive)
    (complete : none ∉ (s.block v).slots) : ∃ s', s.move src v = .ok s' ∧ s'.Balanced ∧
      s'.released = s.released + (s.block v).pages.map BlockPage.release := by
  obtain ⟨released, ran, given⟩ := balanced.free live complete
  set first := update s.block v (s.block v).emptied with first_eq
  set second := update first v (first src) with second_eq
  set third := update second src (second src).emptied with third_eq
  have moved : s.move src v = .ok { s with block := third, released := s.released + released } := by
    rw [Variables.move, ran]
    rfl
  have here : first v = (s.block v).emptied := update_self ..
  refine ⟨_, moved, ⟨?_, ?_⟩, by rw [given]⟩
  · intro u member zero
    have freed (u : V) (member : u ∈ s.alive) (zero : (first u).size = 0) : (first u).slots = [] := by
      by_cases self : u = v
      · rw [self, here]
        rfl
      · rw [first_eq, update_of_ne self] at zero ⊢
        exact balanced.sized u member zero
    change (third u).size = 0 at zero
    change (third u).slots = []
    by_cases emptied : u = src
    · rw [third_eq, emptied, update_self]
      rfl
    · rw [third_eq, update_of_ne emptied] at zero ⊢
      by_cases self : u = v
      · rw [second_eq, self, update_self] at zero ⊢
        exact freed src source zero
      · rw [second_eq, update_of_ne self] at zero ⊢
        exact freed u member zero
  · have moved := @total_move _ _ _ _ BufferBlock.pages s.block s.alive src v _ live source _ (second src).emptied
      (BufferBlock.pages_emptied (s.block v)) (BufferBlock.pages_emptied (second src))
    rw [← first_eq, ← second_eq, ← third_eq, ← held_eq_total] at moved
    change s.inserted.map _ = s.released + (released : Multiset Release) + (total BufferBlock.pages third s.alive).map _
    rw [balanced.balance, ← moved, given, Multiset.map_add]
    abel

/-- What one operation does: it returns, and it releases the pages of the variable it destroys or
overwrites and no others. -/
theorem Balanced.step (balanced : s.Balanced) {op : BlockOp V} (allowed : s.Allowed op) :
    ∃ s', s.step op = .ok s' ∧ s'.Balanced ∧ s'.released = s.released +
      ((overwritten op).elim 0 fun v => (s.block v).pages.map BlockPage.release) := by
  have declare {v : V} (fresh : v ∉ s.alive) (block : BufferBlock) (pages : block.pages = 0)
      (sized : block.size = 0 → block.slots = []) : (s.declare v block).Balanced := by
    refine ⟨fun u member zero => ?_, ?_⟩
    · simp only [Variables.declare] at zero ⊢
      by_cases self : u = v
      · rw [self, update_self] at zero ⊢
        exact sized zero
      · rw [update_of_ne self] at zero ⊢
        exact balanced.sized u (Finset.mem_of_mem_insert_of_ne member self) zero
    · rw [held_declare fresh, pages, add_zero]
      exact balanced.balance
  cases allowed with
  | default fresh => exact ⟨_, rfl, declare fresh _ rfl fun _ => rfl, (add_zero _).symm⟩
  | new fresh bytes some =>
    refine ⟨_, rfl, declare fresh _ (BufferBlock.pages_new _ _) fun zero => ?_, (add_zero _).symm⟩
    exact absurd zero bytes.ne'
  | ofBuffer fresh => exact ⟨_, rfl, declare fresh _ rfl fun _ => rfl, (add_zero _).symm⟩
  | @insertPage v idx page live awaits =>
    obtain ⟨block, ran, size, pages⟩ := BufferBlock.exists_insertPage page awaits
    have stepped : s.step (.insertPage v idx page) =
        .ok { s with block := update s.block v block, inserted := page ::ₘ s.inserted } := by
      rw [Variables.step, ran]
      rfl
    refine ⟨_, stepped, ⟨fun u member zero => ?_, ?_⟩, (add_zero _).symm⟩
    · dsimp only at member zero ⊢
      by_cases self : u = v
      · rw [self, update_self, size] at zero
        rw [balanced.sized v live zero] at awaits
        cases awaits
      · rw [update_of_ne self] at zero ⊢
        exact balanced.sized u member zero
    · have added := @total_update _ _ _ _ BufferBlock.pages s.block s.alive v _ live block
      rw [pages, ← Multiset.singleton_add, ← add_assoc, ← held_eq_total] at added
      change (page ::ₘ s.inserted).map _ = s.released + (total BufferBlock.pages (update s.block v block) s.alive).map _
      rw [add_right_cancel added, Multiset.map_cons, balanced.balance, Multiset.map_add, ← Multiset.singleton_add,
        Multiset.map_singleton]
      abel
  | @construct v src fresh live =>
    have declared := declare fresh .empty rfl fun _ => rfl
    have here : (s.declare v .empty).block v = .empty := update_self ..
    have source : src ∈ (s.declare v .empty).alive := Finset.mem_insert_of_mem live
    obtain ⟨s', ran, balanced', released⟩ :=
      declared.move (Finset.mem_insert_self v _) source (by rw [here]; nofun)
    refine ⟨s', ran, balanced', ?_⟩
    rw [released, here]
    rfl
  | assign live source complete => exact balanced.move live source complete
  | @destroy v live complete =>
    obtain ⟨released, ran, given⟩ := balanced.free live complete
    have stepped : s.step (.destroy v) = .ok { s with
        block := update s.block v (s.block v).emptied
        alive := s.alive.erase v
        released := s.released + released } := by
      rw [Variables.step, ran]
      rfl
    refine ⟨_, stepped, ⟨fun u member zero => ?_, ?_⟩, by rw [given]; rfl⟩
    · obtain ⟨apart, member⟩ := Finset.mem_erase.mp member
      dsimp only at zero ⊢
      rw [update_of_ne apart] at zero ⊢
      exact balanced.sized u member zero
    · have ended := @total_erase _ _ _ _ BufferBlock.pages s.block s.alive v _ live (s.block v).emptied
      rw [← held_eq_total] at ended
      change s.inserted.map _ = s.released + (released : Multiset Release) +
        (total BufferBlock.pages (update s.block v (s.block v).emptied) (s.alive.erase v)).map _
      rw [balanced.balance, ← ended, given, Multiset.map_add]
      abel

theorem balanced (run : Run s) : s.Balanced := by
  refine run.invariant ?_ ?_
  · rintro s ⟨none, inserted, released⟩
    refine ⟨fun v member => ?_, ?_⟩
    · rw [none] at member
      cases member
    · rw [inserted, released, held, none]
      rfl
  · rintro s s' balanced ⟨op, allowed, ran⟩
    obtain ⟨_, stepped, balanced', _⟩ := balanced.step allowed
    cases stepped.symm.trans ran
    exact balanced'

/-- Every reference inserted into a block is released or held, never both; the next operation returns
and releases exactly what the variable it destroys or overwrites holds; so once no variable is left
every reference has been released exactly once. -/
theorem releases_once (run : Run s) :
    s.inserted.map BlockPage.release = s.released + s.held.map BlockPage.release ∧
    (∀ op, s.Allowed op → ∃ s', s.step op = .ok s' ∧ s'.released = s.released +
      ((overwritten op).elim 0 fun v => (s.block v).pages.map BlockPage.release)) ∧
    (s.alive = ∅ → s.released = s.inserted.map BlockPage.release) := by
  have balanced := balanced run
  refine ⟨balanced.balance, fun op allowed => ?_, fun none => ?_⟩
  · obtain ⟨s', stepped, _, released⟩ := balanced.step allowed
    exact ⟨s', stepped, released⟩
  · rw [balanced.balance, held, none, Finset.sum_empty, Multiset.map_zero, add_zero]

/-- Two variables; the second takes the page of the first. -/
theorem releases_once_copy : ∃ s : Variables Bool, Run s ∧ s.alive = ∅ ∧
    s.inserted = {⟨12288, ⟨0, 3⟩, false⟩} ∧ s.released = {.decRefCount ⟨0, 3⟩} := by
  have run : Run (⟨fun _ => .empty, ∅, 0, 0⟩ : Variables Bool) := .init ⟨rfl, rfl, rfl⟩
  have run := run.step ⟨.new false 10 1, .new (by decide) (by decide) le_rfl, rfl⟩
  have run := run.step ⟨.insertPage false 0 ⟨12288, ⟨0, 3⟩, false⟩, .insertPage (by decide) rfl, rfl⟩
  have run := run.step ⟨.construct true false, .construct (by decide) (by decide), rfl⟩
  have run := run.step ⟨.destroy true, .destroy (by decide) (by decide), rfl⟩
  have run := run.step ⟨.destroy false, .destroy (by decide) (by decide), rfl⟩
  have none : ((insert true (insert false ∅ : Finset Bool)).erase true).erase false = ∅ := by decide
  refine ⟨_, run, none, rfl, ?_⟩
  rw [(releases_once run).2.2 none]
  rfl

end Variables

end Gbp
