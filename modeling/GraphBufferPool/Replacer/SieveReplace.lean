import GraphBufferPool.Lib.Fuel
import GraphBufferPool.Replacer.Sieve

/-! # `Replace` and `Erase` of the SIEVE replacer

`Replace` takes a frame without unlinking it: the frame moves to the front with the value 2. Its own
sweep lowers a value of 1 only, so a frame it has marked stays out of its reach. The inner loop takes
a fuel, as it need not end.
-/

namespace Gbp.SieveReplacer_v3

open Fuel

/-- One value in the sweep of `Replace`: 1 is cleared, a higher one stays. -/
def cleared (list : ListArray) (i : ℕ) : ListArray :=
  if list.val i = 1 then list.setValue i 0 else list

/-- The inner loop of `Replace`: pass the frames with a value. -/
def skipReplaced : ℕ → ListArray → ListIndex → Except Stop (ℕ × ListArray)
  | fuel, list, .node i =>
    if list.val i = 0 then .ok (i, list)
    else
      match fuel with
      | 0 => .error .outOfFuel
      | fuel + 1 => skipReplaced fuel (cleared list i) ((cleared list i).sweepFrom i)
  | _, _, _ => .error .badIndex

/-- The rest of the body of the outer loops, at an unmarked frame: whether they break out with it. -/
def attempt (pt : PageTable) (i : ℕ) : Except Stop (Bool × PageTable) :=
  if (pt.ptes i).refCount ≠ 0 then .ok (false, pt) else pt.lockVictim i

/-- The outer loop of `Replace` with `count` tries left. -/
def replaceLoop (fuel : ℕ) (pt : PageTable) :
    ℕ → ListArray → ListIndex → Except Stop (ℕ × ListArray × PageTable)
  | 0, _, _ => .error .assertion
  | count + 1, list, toEvict => do
    let (i, list) ← skipReplaced fuel list toEvict
    let (taken, table) ← attempt pt i
    if taken then return (i, list, table)
    else replaceLoop fuel table count list (list.sweepFrom i)

/-- `Replace`. -/
def replace (fuel : ℕ) (r : SieveReplacer_v3) (pt : PageTable) :
    Except Stop (Option ℕ × SieveReplacer_v3 × PageTable) := do
  let toEvict := if r.pointer = .head then r.list.getTail else r.pointer
  if toEvict = .head then throw .assertion
  let (i, list, table) ← replaceLoop fuel pt (r.list.capacity * 2) r.list toEvict
  let (moved, marked) := (list.setValue i 2).moveToFront i
  check moved
  return (some i, ⟨marked, list.getPrevNodeIndex i⟩, table)

/-- `Erase`; the hand stays where it is. -/
def erase (r : SieveReplacer_v3) (value : ℕ) : Bool × SieveReplacer_v3 :=
  (true, { r with list := r.list.removeFromIndex value })

/-- The sweep of `Victim` tries one frame after the other. -/
theorem victimLoop_succ (pt : PageTable) (count : ℕ) (list : ListArray) (start : ListIndex) :
    victimLoop pt (count + 1) list start = (do
      let found ← skipMarked (list.marks + 1) list start
      let tried ← attempt pt found.1
      if tried.1 then return (found.1, found.2, tried.2)
      else victimLoop tried.2 count found.2 (found.2.sweepFrom found.1)) := by
  rw [victimLoop]
  congr 1
  funext pair
  obtain ⟨i, list'⟩ := pair
  dsimp only
  unfold attempt PageTable.lockVictim
  split_ifs with held
  · rfl
  · cases pt.lockMapping (pt.ptes i).page with
    | error stop => rfl
    | ok locked =>
      obtain ⟨value, table⟩ := locked
      cases value with
      | none => rfl
      | some value =>
        simp only [ok_bind]
        split_ifs with evictable
        · rfl
        · cases table.unLockMapping (table.ptes i).page value with
          | error stop => rfl
          | ok unlocked =>
            obtain ⟨done, restored⟩ := unlocked
            cases done <;> rfl

variable {pt : PageTable}

theorem attempt_takes {i : ℕ} (evictable : pt.Evictable i) :
    attempt pt i = .ok (true, pt.lockFrame (pt.ptes i).page i) := by
  rw [attempt, if_neg (not_not.mpr evictable.2.2), evictable.lockVictim]

/-- In a consistent pool a sweep passes every tracked frame that is not evictable. -/
theorem attempt_passes {i : ℕ} {tracked : List ℕ} (consistent : pt.Consistent tracked)
    (member : i ∈ tracked) (kept : ¬ pt.Evictable i) : attempt pt i = .ok (false, pt) := by
  unfold attempt
  split_ifs
  · rfl
  · exact consistent.lockVictim member kept

/-- Whatever the page table, the sweep of `Victim` breaks out at a linked frame. -/
theorem victimLoop_linked {count : ℕ} {list : ListArray} {i : ℕ} (distinct : list.nodes.Nodup)
    (linked : i ∈ list.nodes) {j : ℕ} {list' : ListArray} {table : PageTable}
    (ran : victimLoop pt count list (.node i) = .ok (j, list', table)) :
    Lowered list list' ∧ j ∈ list.nodes := by
  induction count generalizing pt list i with
  | zero => cases ran
  | succ count ih =>
    obtain ⟨k, middle, skipped, lowered, member, _⟩ :=
      exists_skipMarked distinct linked (Nat.le_succ list.marks)
    rw [victimLoop_succ, skipped, ok_bind] at ran
    obtain ⟨⟨taken, after⟩, tried, ran⟩ := bind_eq_ok.mp ran
    cases taken with
    | true =>
      cases ran
      exact ⟨lowered, member⟩
    | false =>
      obtain ⟨next, later, moved⟩ := ListArray.exists_sweepFrom (lowered.nodes ▸ member)
      dsimp only at ran
      rw [if_neg (by simp), moved] at ran
      obtain ⟨lowered', linked'⟩ := ih (lowered.nodes ▸ distinct) later ran
      exact ⟨lowered.trans lowered', lowered.nodes ▸ linked'⟩

@[simp] theorem cleared_sweepFrom (list : ListArray) (i k : ℕ) :
    (cleared list i).sweepFrom k = list.sweepFrom k := by
  unfold cleared
  split_ifs <;> rfl

theorem lowered_cleared (list : ListArray) (i : ℕ) : Lowered list (cleared list i) := by
  unfold cleared
  split_ifs with one
  · have lowered := lowered_setValue list i
    rwa [one] at lowered
  · exact .refl list

/-- Clearing leaves alone what it does not set to zero. -/
theorem cleared_val_or (list : ListArray) (i k : ℕ) :
    (cleared list i).val k = list.val k ∨ k = i ∧ list.val k = 1 ∧ (cleared list i).val k = 0 := by
  unfold cleared
  split_ifs with one
  · by_cases here : k = i
    · subst here
      exact Or.inr ⟨rfl, one, Function.update_self ..⟩
    · exact Or.inl (Function.update_of_ne here ..)
  · exact Or.inl rfl

/-- The sweep of `Replace` has only cleared marks of 1. -/
structure Cleared (list list' : ListArray) : Prop extends Lowered list list' where
  high : ∀ i, 1 < list.val i → list'.val i = list.val i

theorem Cleared.refl (list : ListArray) : Cleared list list := ⟨.refl list, fun _ _ => rfl⟩

theorem Cleared.trans {first second third : ListArray} (before : Cleared first second)
    (after : Cleared second third) : Cleared first third := by
  refine ⟨before.toLowered.trans after.toLowered, fun i high => ?_⟩
  have kept := before.high i high
  rw [after.high i (by rw [kept]; exact high), kept]

theorem cleared_cleared (list : ListArray) (i : ℕ) : Cleared list (cleared list i) := by
  refine ⟨lowered_cleared list i, fun k high => ?_⟩
  rcases cleared_val_or list i k with same | ⟨_, one, _⟩
  · exact same
  · omega

/-- The inner loop of `Replace` ends at a linked frame without a value. -/
theorem skipReplaced_linked {fuel : ℕ} {list : ListArray} {i : ℕ} (linked : i ∈ list.nodes) {j : ℕ}
    {list' : ListArray} (ran : skipReplaced fuel list (.node i) = .ok (j, list')) :
    Cleared list list' ∧ j ∈ list.nodes ∧ list'.val j = 0 := by
  induction fuel generalizing list i with
  | zero =>
    rw [skipReplaced] at ran
    split_ifs at ran with clear
    cases ran
    exact ⟨.refl _, linked, clear⟩
  | succ fuel ih =>
    rw [skipReplaced] at ran
    split_ifs at ran with clear
    · cases ran
      exact ⟨.refl _, linked, clear⟩
    · obtain ⟨next, later, moved⟩ := ListArray.exists_sweepFrom linked
      have step := cleared_cleared list i
      rw [cleared_sweepFrom, moved] at ran
      obtain ⟨rest, member, zero⟩ := ih (step.nodes.symm ▸ later) ran
      exact ⟨step.trans rest, step.nodes ▸ member, zero⟩

/-- Passing a frame brings the sweep of `Replace` closer to every frame with a value below 2. -/
theorem closeness_clear {list : ListArray} {target i : ℕ} (distinct : list.nodes.Nodup)
    (linked : i ∈ list.nodes) (member : target ∈ list.nodes) (low : list.val target ≤ 1)
    (marked : list.val i ≠ 0) : ∃ j ∈ list.nodes, list.sweepFrom i = .node j ∧
      closeness (cleared list i) target j + 1 ≤ closeness list target i := by
  have step := cleared_cleared list i
  obtain ⟨next, later, moved, distance⟩ :=
    ListArray.exists_sweepFrom_distance distinct linked member
  have same : (cleared list i).distance target next = list.distance target next := by
    unfold ListArray.distance
    rw [step.nodes]
  refine ⟨next, later, moved, ?_⟩
  simp only [closeness, same, step.nodes]
  by_cases here : i = target
  · subst here
    have one : list.val i = 1 := by omega
    have zero : (cleared list i).val i = 0 := by
      rw [cleared, if_pos one]
      exact Function.update_self ..
    rw [if_pos rfl] at distance
    rw [zero, one]
    omega
  · have unchanged : (cleared list i).val target = list.val target :=
      (cleared_val_or list i target).resolve_right fun both => here both.1.symm
    rw [if_neg here] at distance
    rw [unchanged]
    omega

/-- The inner loop ends where some frame has a value below 2, and comes no farther from it. -/
theorem exists_skipReplaced {fuel : ℕ} {list : ListArray} {i target : ℕ}
    (distinct : list.nodes.Nodup) (linked : i ∈ list.nodes) (member : target ∈ list.nodes)
    (low : list.val target ≤ 1) (enough : closeness list target i < fuel) :
    ∃ j list', skipReplaced fuel list (.node i) = .ok (j, list') ∧
      closeness list' target j ≤ closeness list target i := by
  induction fuel generalizing list i with
  | zero => omega
  | succ fuel ih =>
    by_cases clear : list.val i = 0
    · exact ⟨i, list, by simp [skipReplaced, clear], le_rfl⟩
    · have step := cleared_cleared list i
      obtain ⟨next, later, moved, closer⟩ := closeness_clear distinct linked member low clear
      have nodes := step.nodes
      obtain ⟨j, list', ran, near⟩ := ih (nodes.symm ▸ distinct) (nodes.symm ▸ later)
        (nodes.symm ▸ member) ((step.val target).trans low) (by omega)
      refine ⟨j, list', ?_, by omega⟩
      rw [skipReplaced, if_neg clear, cleared_sweepFrom, moved, ran]

/-- Whatever the page table, the sweep of `Replace` breaks out at a linked frame without a value. -/
theorem replaceLoop_linked {fuel count : ℕ} {list : ListArray} {i : ℕ} (linked : i ∈ list.nodes)
    {j : ℕ} {list' : ListArray} {table : PageTable}
    (ran : replaceLoop fuel pt count list (.node i) = .ok (j, list', table)) :
    Cleared list list' ∧ j ∈ list.nodes ∧ list'.val j = 0 := by
  induction count generalizing pt list i with
  | zero => cases ran
  | succ count ih =>
    obtain ⟨⟨k, middle⟩, skipped, ran⟩ := bind_eq_ok.mp ran
    obtain ⟨cleared, member, zero⟩ := skipReplaced_linked linked skipped
    obtain ⟨⟨taken, after⟩, tried, ran⟩ := bind_eq_ok.mp ran
    cases taken with
    | true =>
      cases ran
      exact ⟨cleared, member, zero⟩
    | false =>
      obtain ⟨next, later, moved⟩ := ListArray.exists_sweepFrom (cleared.nodes.symm ▸ member)
      dsimp only at ran
      rw [if_neg (by simp), moved] at ran
      obtain ⟨cleared', linked', zero⟩ := ih later ran
      exact ⟨cleared.trans cleared', cleared.nodes ▸ linked', zero⟩

/-- In a consistent pool the sweep of `Replace` breaks out with an evictable frame, locked. -/
theorem replaceLoop_sound {fuel count : ℕ} {list : ListArray} {i : ℕ}
    (consistent : pt.Consistent list.nodes) (linked : i ∈ list.nodes) {j : ℕ} {list' : ListArray}
    {table : PageTable} (ran : replaceLoop fuel pt count list (.node i) = .ok (j, list', table)) :
    pt.Evictable j ∧ table = pt.lockFrame (pt.ptes j).page j := by
  induction count generalizing list i with
  | zero => cases ran
  | succ count ih =>
    obtain ⟨⟨k, middle⟩, skipped, ran⟩ := bind_eq_ok.mp ran
    obtain ⟨cleared, member, _⟩ := skipReplaced_linked linked skipped
    dsimp only at ran
    by_cases evictable : pt.Evictable k
    · rw [attempt_takes evictable] at ran
      cases ran
      exact ⟨evictable, rfl⟩
    · obtain ⟨next, later, moved⟩ := ListArray.exists_sweepFrom (cleared.nodes.symm ▸ member)
      rw [attempt_passes consistent member evictable, ok_bind, if_neg (by simp), moved] at ran
      exact ih (cleared.nodes.symm ▸ consistent) later ran

/-- Enough tries reach any evictable frame with a value below 2, or another one before it. -/
theorem exists_replaceLoop {fuel count : ℕ} {list : ListArray} {i target : ℕ}
    (distinct : list.nodes.Nodup) (consistent : pt.Consistent list.nodes) (linked : i ∈ list.nodes)
    (member : target ∈ list.nodes) (evictable : pt.Evictable target) (low : list.val target ≤ 1)
    (enough : closeness list target i < count) (room : count ≤ fuel) :
    ∃ result, replaceLoop fuel pt count list (.node i) = .ok result := by
  induction count generalizing list i with
  | zero => omega
  | succ count ih =>
    obtain ⟨k, middle, skipped, closer⟩ :=
      exists_skipReplaced distinct linked member low (show closeness list target i < fuel by omega)
    obtain ⟨cleared, here, _⟩ := skipReplaced_linked linked skipped
    rw [replaceLoop, skipped, ok_bind]
    dsimp only
    by_cases takes : pt.Evictable k
    · rw [attempt_takes takes]
      exact ⟨_, rfl⟩
    · have other : k ≠ target := by
        rintro rfl
        exact takes evictable
      have nodes := cleared.nodes
      have inside : target ∈ middle.nodes := nodes.symm ▸ member
      obtain ⟨next, later, moved, step⟩ :=
        ListArray.exists_sweepFrom_distance (nodes.symm ▸ distinct) (nodes.symm ▸ here) inside
      rw [if_neg other] at step
      rw [attempt_passes consistent here takes, ok_bind, if_neg (by simp), moved]
      apply ih
      · exact nodes.symm ▸ distinct
      · exact nodes.symm ▸ consistent
      · exact later
      · exact inside
      · exact (cleared.val target).trans low
      · unfold closeness at closer enough ⊢
        omega
      · omega

private theorem skipReplaced_stable (list : ListArray) (start : ListIndex) :
    Stable fun fuel => skipReplaced fuel list start := by
  intro fuel result ran
  induction fuel generalizing list start with
  | zero =>
    cases start with
    | node i =>
      simp only [skipReplaced] at ran ⊢
      split_ifs at ran ⊢ with clear
      exact ran
    | head | invalid => cases ran
  | succ fuel ih =>
    cases start with
    | node i =>
      simp only [skipReplaced] at ran ⊢
      split_ifs at ran ⊢ with clear
      · exact ran
      · exact ih _ _ ran
    | head | invalid => cases ran

private theorem replaceLoop_stable (pt : PageTable) (count : ℕ) (list : ListArray)
    (start : ListIndex) : Stable fun fuel => replaceLoop fuel pt count list start := by
  induction count generalizing pt list start with
  | zero => exact .const _
  | succ count ih =>
    refine (skipReplaced_stable list start).bind fun (i, list) => (Stable.const _).bind ?_
    rintro ⟨taken, table⟩
    cases taken with
    | true => exact .const _
    | false => exact ih table list _

/-- More fuel never changes what `Replace` returns. -/
theorem replace_stable (r : SieveReplacer_v3) (pt : PageTable) :
    Stable fun fuel => r.replace fuel pt := by
  unfold replace
  dsimp only
  generalize (if r.pointer = .head then r.list.getTail else r.pointer) = start
  split_ifs
  · exact .const _
  · exact (replaceLoop_stable pt _ r.list start).bind fun _ => .const _

end Gbp.SieveReplacer_v3
