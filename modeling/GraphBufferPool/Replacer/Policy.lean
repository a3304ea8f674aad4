import GraphBufferPool.Lib.Agreement
import GraphBufferPool.Replacer.Replacer

/-! # The replacers a pool can be built with

What a pool calls on any `Replacer<mpage_id_type>`: `Insert` on a miss, `Promote` on a hit and `Victim`
for an eviction. A run of such calls, each `Victim` in a pool state of its own, tracks the frames
that were inserted and not victimised since.
-/

namespace Gbp

/-- A replacer implementation. `Constructed capacity` are the objects its constructor makes for a pool of
that many frames. `victim` takes a fuel for its loops; it returns the frame where the method returns
true. -/
class Policy (R : Type) where
  Constructed : ℕ → R → Prop
  insert : R → ℕ → Except Stop (Bool × R)
  promote : R → ℕ → Except Stop (Bool × R)
  victim : ℕ → R → PageTable → Except Stop (Option ℕ × R × PageTable)

/-- The tracked frames after a `Victim`. -/
def untrack (tracked : Finset ℕ) : Option ℕ → Finset ℕ
  | some m => tracked.erase m
  | none => tracked

/-- A replacer after a run of calls that returned, with the frames inserted and not victimised since. -/
inductive Tracks {R : Type} [Policy R] (capacity : ℕ) : R → Finset ℕ → Prop
  | new {r : R} (constructed : Policy.Constructed capacity r) : Tracks capacity r ∅
  | insert {r r' : R} {tracked : Finset ℕ} {m : ℕ} {inserted : Bool} (before : Tracks capacity r tracked)
      (ran : Policy.insert r m = .ok (inserted, r')) : Tracks capacity r' (Insert.insert m tracked)
  | promote {r r' : R} {tracked : Finset ℕ} {m : ℕ} {promoted : Bool} (before : Tracks capacity r tracked)
      (ran : Policy.promote r m = .ok (promoted, r')) : Tracks capacity r' tracked
  | victim {r r' : R} {tracked : Finset ℕ} {fuel : ℕ} {pt pt' : PageTable} {taken : Option ℕ}
      (before : Tracks capacity r tracked) (ran : Policy.victim fuel r pt = .ok (taken, r', pt')) :
      Tracks capacity r' (untrack tracked taken)

/-- In every run of a replacer for so many frames `Promote` returns true on a tracked frame exactly under
the condition. -/
def PromotesIn (R : Type) [Policy R] (capacity : ℕ) (condition : R → ℕ → Prop) : Prop :=
  ∀ (r : R) (tracked : Finset ℕ), Tracks capacity r tracked → ∀ m ∈ tracked,
    (∃ r', Policy.promote r m = .ok (true, r')) ↔ condition r m

/-- The same for every number of frames. -/
def PromotesWhen (R : Type) [Policy R] (condition : R → ℕ → Prop) : Prop :=
  ∀ capacity, PromotesIn R capacity condition

/-- What a replacer knows of a tracked frame, and what it always keeps in order. -/
structure Keeps (R : Type) [Policy R] (Good : R → Prop) (Knows : R → ℕ → Prop) : Prop where
  constructed : ∀ capacity (r : R), Policy.Constructed capacity r → Good r
  insert : ∀ (r r' : R) m inserted, Good r → Policy.insert r m = .ok (inserted, r') →
    Good r' ∧ Knows r' m ∧ ∀ k, Knows r k → Knows r' k
  promote : ∀ (r r' : R) m promoted, Good r → Policy.promote r m = .ok (promoted, r') →
    Good r' ∧ ∀ k, Knows r k → Knows r' k
  victim : ∀ fuel (r r' : R) pt pt' taken, Good r → Policy.victim fuel r pt = .ok (taken, r', pt') →
    Good r' ∧ ∀ k, Knows r k → taken ≠ some k → Knows r' k

/-- In every run a replacer knows its tracked frames. -/
theorem Keeps.tracks {R : Type} [Policy R] {Good : R → Prop} {Knows : R → ℕ → Prop}
    (keeps : Keeps R Good Knows) {capacity : ℕ} {r : R} {tracked : Finset ℕ}
    (run : Tracks capacity r tracked) : Good r ∧ ∀ m ∈ tracked, Knows r m := by
  induction run with
  | new constructed => exact ⟨keeps.constructed _ _ constructed, by simp⟩
  | insert _ ran ih =>
    obtain ⟨good, here, others⟩ := keeps.insert _ _ _ _ ih.1 ran
    refine ⟨good, fun k member => ?_⟩
    rcases Finset.mem_insert.mp member with rfl | earlier
    · exact here
    · exact others k (ih.2 k earlier)
  | promote _ ran ih =>
    obtain ⟨good, others⟩ := keeps.promote _ _ _ _ ih.1 ran
    exact ⟨good, fun k member => others k (ih.2 k member)⟩
  | @victim _ _ _ _ _ _ taken _ ran ih =>
    obtain ⟨good, others⟩ := keeps.victim _ _ _ _ _ _ ih.1 ran
    refine ⟨good, fun k member => ?_⟩
    cases taken with
    | none => exact others k (ih.2 k member) (by simp)
    | some m =>
      obtain ⟨other, earlier⟩ := Finset.mem_erase.mp member
      exact others k (ih.2 k earlier) (by simpa using Ne.symm other)

theorem Keeps.promotesWhen {R : Type} [Policy R] {Good : R → Prop} {Knows : R → ℕ → Prop}
    {condition : R → ℕ → Prop} (keeps : Keeps R Good Knows)
    (exact : ∀ (r : R) m, Good r → Knows r m →
      ((∃ r', Policy.promote r m = .ok (true, r')) ↔ condition r m)) : PromotesWhen R condition := by
  intro capacity r tracked run m member
  obtain ⟨good, knows⟩ := keeps.tracks run
  exact exact r m good (knows m member)

/-- Every call on a replacer does what it does on a related one. -/
structure Corresponds {R A : Type} [Policy R] [Policy A] (Rel : R → A → Prop) : Prop where
  insert : ∀ r a m, Rel r a → Agree (fun x y => x.1 = y.1 ∧ Rel x.2 y.2) (Policy.insert r m) (Policy.insert a m)
  promote : ∀ r a m, Rel r a → Agree (fun x y => x.1 = y.1 ∧ Rel x.2 y.2) (Policy.promote r m) (Policy.promote a m)
  victim : ∀ fuel r a pt, Rel r a → Agree (fun x y => x.1 = y.1 ∧ Rel x.2.1 y.2.1 ∧ x.2.2 = y.2.2)
    (Policy.victim fuel r pt) (Policy.victim fuel a pt)

namespace Corresponds

variable {R A : Type} [Policy R] [Policy A] {Rel : R → A → Prop} {capacity : ℕ}

/-- The runs correspond as well. -/
theorem tracks (corresponds : Corresponds Rel)
    (constructed : ∀ r, Policy.Constructed capacity r → ∃ a, Policy.Constructed capacity a ∧ Rel r a) {r : R}
    {tracked : Finset ℕ} (run : Tracks capacity r tracked) : ∃ a, Rel r a ∧ Tracks capacity a tracked := by
  induction run with
  | new made =>
    obtain ⟨a, made, related⟩ := constructed _ made
    exact ⟨a, related, .new made⟩
  | insert _ ran ih =>
    obtain ⟨a, related, run⟩ := ih
    obtain ⟨⟨result, a'⟩, moved, -, next⟩ := (corresponds.insert _ a _ related).right ran
    exact ⟨a', next, run.insert moved⟩
  | promote _ ran ih =>
    obtain ⟨a, related, run⟩ := ih
    obtain ⟨⟨result, a'⟩, moved, -, next⟩ := (corresponds.promote _ a _ related).right ran
    exact ⟨a', next, run.promote moved⟩
  | victim _ ran ih =>
    obtain ⟨a, related, run⟩ := ih
    obtain ⟨⟨taken, a', table⟩, moved, rfl, next, -⟩ := (corresponds.victim _ _ a _ related).right ran
    exact ⟨a', next, run.victim moved⟩

theorem promotesIn (corresponds : Corresponds Rel)
    (constructed : ∀ r, Policy.Constructed capacity r → ∃ a, Policy.Constructed capacity a ∧ Rel r a)
    (promotes : PromotesIn A capacity fun _ _ => True) : PromotesIn R capacity fun _ _ => True := by
  intro r tracked run m member
  obtain ⟨a, related, run⟩ := corresponds.tracks constructed run
  obtain ⟨a', moved⟩ := (promotes a tracked run m member).mpr trivial
  obtain ⟨⟨result, r'⟩, ran, same, -⟩ := (corresponds.promote r a m related).left moved
  obtain rfl : result = true := same
  exact iff_of_true ⟨r', ran⟩ trivial

end Corresponds

/-- `prev` of the heap node `i` in a list from its head: null, or what lies before `nodes`, at the first
one. -/
def prevNode (before : Option ℕ) : List ℕ → ℕ → Option ℕ
  | [], _ => none
  | x :: rest, i => if x = i then before else prevNode (some x) rest i

/-- The search of a queue replacer from its tail: the first frame it can lock. With `skipsPinned` the
pinned frames are passed without trying. -/
def PageTable.searchFrom (skipsPinned : Bool) (pt : PageTable) :
    List ℕ → Except Stop (Option ℕ × PageTable)
  | [] => .ok (none, pt)
  | i :: rest =>
    if skipsPinned ∧ (pt.ptes i).refCount ≠ 0 then searchFrom skipsPinned pt rest
    else do
      let (taken, table) ← pt.lockVictim i
      if taken then return (some i, table)
      else searchFrom skipsPinned table rest

end Gbp
