import GraphBufferPool.Replacer.Methods
import GraphBufferPool.Replacer.SieveRuns

/-! # The batch `Victim` of `SieveReplacer_v3`

Its loop stops after `2 * capacity_` tries, so it ends in a list of frames that it may not take; but a list that becomes
empty while more frames are wanted has no node to start from, and `getValue` raises an exception at the
sentinel.
-/

namespace Gbp

open Fuel

namespace SieveReplacer_v3

/-- The sweep for one frame of a batch, with `count` tries left: the frame it takes, if any. -/
def batchLoop : ℕ → PageTable → ListArray → ListIndex → Except Stop (Option ℕ × ListArray × PageTable)
  | 0, pt, list, _ => .ok (none, list, pt)
  | count + 1, pt, list, toEvict => do
    let (i, list) ← skipMarked (list.marks + 1) list toEvict
    if (pt.ptes i).refCount ≠ 0 ∨ (pt.ptes i).dirty = true then batchLoop count pt list (list.sweepFrom i)
    else
      let (taken, table) ← pt.lockClean i
      if taken then
        let (deleted, table) ← table.deleteMapping (pt.ptes i).page
        check deleted
        return (some i, list, table)
      else batchLoop count table list (list.sweepFrom i)

/-- The loop over the frames that are wanted. -/
def batchVictims : ℕ → SieveReplacer_v3 → PageTable → List ℕ →
    Except Stop (Bool × List ℕ × SieveReplacer_v3 × PageTable)
  | 0, r, pt, mpageIds => .ok (true, mpageIds, r, pt)
  | pageNum + 1, r, pt, mpageIds => do
    let toEvict := if r.pointer = .head then r.list.getTail else r.pointer
    let (taken, list, table) ← batchLoop (r.list.capacity * 2) pt r.list toEvict
    match taken with
    | none => return (!mpageIds.isEmpty, mpageIds, { r with list := list }, table)
    | some i => batchVictims pageNum ⟨list.removeFromIndex i, list.getPrevNodeIndex i⟩ table (mpageIds ++ [i])

variable {r : SieveReplacer_v3} {pt : PageTable} {list : ListArray}

/-- What the sweep for one frame comes to, from a linked node. -/
theorem batchLoop_linked {count i : ℕ} (distinct : list.nodes.Nodup) (linked : i ∈ list.nodes)
    (inOrder : ∀ m ∈ list.nodes, pt.InOrder m) :
    ∃ list', Lowered list list' ∧
      (batchLoop count pt list (.node i) = .ok (none, list', pt) ∧ (0 < count → ∃ m ∈ list.nodes, ¬ pt.Reusable m) ∨
        ∃ j ∈ list.nodes, pt.Reusable j ∧ batchLoop count pt list (.node i) = .ok (some j, list', pt.withdraw j)) := by
  induction count generalizing list i with
  | zero => exact ⟨list, .refl list, Or.inl ⟨rfl, fun none => absurd none (lt_irrefl 0)⟩⟩
  | succ count ih =>
    obtain ⟨k, middle, skipped, lowered, member, _⟩ := exists_skipMarked distinct linked (Nat.le_succ list.marks)
    have goesOn (kept : ¬ pt.Reusable k)
        (step : batchLoop (count + 1) pt list (.node i) = batchLoop count pt middle (middle.sweepFrom k)) :
        ∃ list', Lowered list list' ∧
          (batchLoop (count + 1) pt list (.node i) = .ok (none, list', pt) ∧
              (0 < count + 1 → ∃ m ∈ list.nodes, ¬ pt.Reusable m) ∨
            ∃ j ∈ list.nodes, pt.Reusable j ∧
              batchLoop (count + 1) pt list (.node i) = .ok (some j, list', pt.withdraw j)) := by
      obtain ⟨next, later, moved⟩ := ListArray.exists_sweepFrom (lowered.nodes ▸ member)
      obtain ⟨list', lowered', ended⟩ := ih (lowered.nodes ▸ distinct) later fun m here => inOrder m (lowered.nodes ▸ here)
      rw [step, moved]
      refine ⟨list', lowered.trans lowered', ended.imp (fun none => ⟨none.1, fun _ => ⟨k, member, kept⟩⟩) ?_⟩
      rintro ⟨j, here, taken⟩
      exact ⟨j, lowered.nodes ▸ here, taken⟩
    have known := inOrder k member
    by_cases held : (pt.ptes k).refCount ≠ 0 ∨ (pt.ptes k).dirty = true
    · refine goesOn (fun reusable => ?_) ?_
      · rcases held with pinned | dirty
        · exact pinned reusable.1.2.2
        · rw [reusable.2] at dirty
          cases dirty
      · rw [batchLoop, skipped, ok_bind]
        exact if_pos held
    · by_cases reusable : pt.Reusable k
      · refine ⟨middle, lowered, Or.inr ⟨k, member, reusable, ?_⟩⟩
        have deleted := reusable.1.delete
        rw [show ((pt.lockFrame (pt.ptes k).page k).ptes k).page = (pt.ptes k).page by
          simp [PageTable.lockFrame, PTE.page]] at deleted
        rw [batchLoop, skipped, ok_bind]
        dsimp only
        rw [if_neg held, known.lockClean, ok_bind, if_pos reusable, decide_eq_true reusable]
        dsimp only
        rw [if_pos rfl, deleted]
        rfl
      · refine goesOn reusable ?_
        rw [batchLoop, skipped, ok_bind]
        dsimp only
        rw [if_neg held, known.lockClean, ok_bind, if_neg reusable, decide_eq_false reusable]
        rfl

/-- What a batch has done: it took so many reusable frames at most, which are out of the list and of the mappings, and
the others are linked in their order with the hand among them. -/
structure BatchDone (r : SieveReplacer_v3) (pt : PageTable) (pageNum : ℕ) (taken : List ℕ) (r' : SieveReplacer_v3)
    (pt' : PageTable) : Prop where
  count : taken.length ≤ pageNum
  nodup : taken.Nodup
  reusable : ∀ m ∈ taken, m ∈ r.list.nodes ∧ pt.Reusable m
  withdrawn : ∀ m ∈ taken, pt'.word? (pt.ptes m).page = some .empty
  nodes : r'.list.nodes = r.list.nodes.filter (· ∉ taken)
  hand : HandValid r'

/-- The list does not run out of frames before the batch has what it wants. -/
def Stocked (pageNum : ℕ) (r : SieveReplacer_v3) (pt : PageTable) : Prop :=
  r.list.capacity = 0 ∨ pageNum ≤ r.list.nodes.length ∨ ∃ m ∈ r.list.nodes, ¬ pt.Reusable m

theorem batchDone_nil (hand : HandValid r) {list' : ListArray} (lowered : Lowered r.list list') (pageNum : ℕ) :
    BatchDone r pt pageNum [] { r with list := list' } pt where
  count := Nat.zero_le _
  nodup := .nil
  reusable := by simp
  withdrawn := by simp
  nodes := by simp [lowered.nodes]
  hand := by
    rw [HandValid, lowered.nodes]
    exact hand

/-- The replacer after a frame of a batch. -/
structure Unlinked (r r' : SieveReplacer_v3) (j : ℕ) : Prop where
  nodes : r'.list.nodes = r.list.nodes.erase j
  capacity : r'.list.capacity = r.list.capacity
  hand : HandValid r'

theorem Lowered.unlinked {list' : ListArray} {j : ℕ} (lowered : Lowered r.list list') (distinct : r.list.nodes.Nodup)
    (linked : j ∈ r.list.nodes) (inside : j < r.list.capacity) :
    Unlinked r ⟨list'.removeFromIndex j, list'.getPrevNodeIndex j⟩ j := by
  have removed : list'.removeFromIndex j = { list' with nodes := list'.nodes.erase j } :=
    if_neg (Nat.not_le.mpr (lowered.capacity ▸ inside))
  rw [removed]
  refine ⟨by rw [lowered.nodes], lowered.capacity, ?_⟩
  exact prev_after_erase (lowered.nodes ▸ distinct) (lowered.nodes ▸ linked)

variable {r₁ : SieveReplacer_v3} {j : ℕ}

/-- The stock after one frame. -/
theorem Unlinked.stocked_iff (unlinked : Unlinked r r₁ j) (distinct : r.list.nodes.Nodup) (linked : j ∈ r.list.nodes)
    (reusable : pt.Reusable j) (inOrder : ∀ m ∈ r.list.nodes, pt.InOrder m) (pageNum : ℕ) :
    Stocked pageNum r₁ (pt.withdraw j) ↔ Stocked (pageNum + 1) r pt := by
  have filled := List.length_pos_of_mem linked
  have others : (∃ m ∈ r₁.list.nodes, ¬ (pt.withdraw j).Reusable m) ↔ ∃ m ∈ r.list.nodes, ¬ pt.Reusable m := by
    constructor
    · rintro ⟨m, later, kept⟩
      rw [unlinked.nodes, distinct.mem_erase_iff] at later
      exact ⟨m, later.2, ((inOrder m later.2).reusable_withdraw reusable.1 later.1).not.mp kept⟩
    · rintro ⟨m, member, kept⟩
      have other : m ≠ j := by
        rintro rfl
        exact kept reusable
      refine ⟨m, ?_, ((inOrder m member).reusable_withdraw reusable.1 other).not.mpr kept⟩
      rw [unlinked.nodes, distinct.mem_erase_iff]
      exact ⟨other, member⟩
  have fewer : pageNum ≤ r₁.list.nodes.length ↔ pageNum + 1 ≤ r.list.nodes.length := by
    rw [unlinked.nodes, List.length_erase_of_mem linked]
    omega
  rw [Stocked, Stocked, unlinked.capacity, fewer, others]

/-- The first frame and the rest of a batch. -/
theorem Unlinked.batchDone {r' : SieveReplacer_v3} {pt' : PageTable} {taken : List ℕ} {pageNum : ℕ}
    (unlinked : Unlinked r r₁ j) (distinct : r.list.nodes.Nodup) (linked : j ∈ r.list.nodes) (reusable : pt.Reusable j)
    (inOrder : ∀ m ∈ r.list.nodes, pt.InOrder m) (done : BatchDone r₁ (pt.withdraw j) pageNum taken r' pt')
    (empties : ∀ page, (pt.withdraw j).word? page = some .empty → pt'.word? page = some .empty) :
    BatchDone r pt (pageNum + 1) (j :: taken) r' pt' := by
  have others {m : ℕ} (later : m ∈ taken) : m ≠ j ∧ m ∈ r.list.nodes := by
    have member := (done.reusable m later).1
    rwa [unlinked.nodes, distinct.mem_erase_iff] at member
  refine ⟨Nat.succ_le_succ done.count, List.nodup_cons.mpr ⟨fun again => (others again).1 rfl, done.nodup⟩,
    fun m member => ?_, fun m member => ?_, ?_, done.hand⟩
  · rcases List.mem_cons.mp member with rfl | later
    · exact ⟨linked, reusable⟩
    · obtain ⟨other, there⟩ := others later
      exact ⟨there, ((inOrder m there).reusable_withdraw reusable.1 other).mp (done.reusable m later).2⟩
  · rcases List.mem_cons.mp member with rfl | later
    · exact empties _ reusable.1.withdraw_self
    · obtain ⟨other, there⟩ := others later
      have word := done.withdrawn m later
      rwa [(PageTable.withdraw_other reusable.1 (inOrder m there) other).1] at word
  · rw [done.nodes, unlinked.nodes, distinct.erase_eq_filter, List.filter_filter]
    refine List.filter_congr fun m _ => ?_
    rw [Bool.eq_iff_iff]
    simp [and_comm]

/-- A batch ends with what it should have done, or it runs out of frames and looks for a value at the sentinel. -/
theorem batchVictims_ends (pageNum : ℕ) (distinct : r.list.nodes.Nodup) (inside : ∀ i ∈ r.list.nodes, i < r.list.capacity)
    (hand : HandValid r) (inOrder : ∀ m ∈ r.list.nodes, pt.InOrder m) (mpageIds : List ℕ) :
    Stocked pageNum r pt ∧ (∃ result taken r' pt',
        batchVictims pageNum r pt mpageIds = .ok (result, mpageIds ++ taken, r', pt') ∧
          BatchDone r pt pageNum taken r' pt' ∧ ∀ page, pt.word? page = some .empty → pt'.word? page = some .empty) ∨
      ¬ Stocked pageNum r pt ∧ batchVictims pageNum r pt mpageIds = .error .badIndex := by
  induction pageNum generalizing r pt mpageIds with
  | zero =>
    refine Or.inl ⟨Or.inr (Or.inl (Nat.zero_le _)), true, [], r, pt, ?_, batchDone_nil hand (.refl _) 0, fun _ => id⟩
    rw [batchVictims, List.append_nil]
  | succ pageNum ih =>
    have gaveUp {list' : ListArray} (lowered : Lowered r.list list') (stocked : Stocked (pageNum + 1) r pt)
        (swept : batchLoop (r.list.capacity * 2) pt r.list (if r.pointer = .head then r.list.getTail else r.pointer) =
          .ok (none, list', pt)) : Stocked (pageNum + 1) r pt ∧ ∃ result taken r' pt',
        batchVictims (pageNum + 1) r pt mpageIds = .ok (result, mpageIds ++ taken, r', pt') ∧
          BatchDone r pt (pageNum + 1) taken r' pt' ∧
            ∀ page, pt.word? page = some .empty → pt'.word? page = some .empty := by
      refine ⟨stocked, !mpageIds.isEmpty, [], _, pt, ?_, batchDone_nil hand lowered _, fun _ => id⟩
      rw [batchVictims, List.append_nil]
      simp only [swept, ok_bind]
      rfl
    rcases hand.start with ⟨start, empty⟩ | ⟨i, linked, start⟩
    · by_cases none : r.list.capacity = 0
      · refine Or.inl (gaveUp (.refl _) (Or.inl none) ?_)
        rw [none, start]
        rfl
      · obtain ⟨count, tries⟩ := Nat.exists_eq_succ_of_ne_zero (Nat.mul_ne_zero none two_ne_zero)
        refine Or.inr ⟨by simp [Stocked, none, empty], ?_⟩
        simp only [batchVictims, start, tries, batchLoop, skipMarked]
        rfl
    · obtain ⟨list', lowered, ⟨swept, kept⟩ | ⟨j, member, reusable, swept⟩⟩ :=
        @batchLoop_linked pt r.list (r.list.capacity * 2) i distinct linked inOrder
      · have positive := inside i linked
        exact Or.inl (gaveUp lowered (Or.inr (Or.inr (kept (by omega)))) (start ▸ swept))
      · have unlinked := lowered.unlinked distinct member (inside j member)
        have later {m : ℕ} (there : m ∈ (list'.removeFromIndex j).nodes) : m ≠ j ∧ m ∈ r.list.nodes := by
          have there := unlinked.nodes ▸ there
          exact distinct.mem_erase_iff.mp there
        have step : batchVictims (pageNum + 1) r pt mpageIds = batchVictims pageNum
            ⟨list'.removeFromIndex j, list'.getPrevNodeIndex j⟩ (pt.withdraw j) (mpageIds ++ [j]) := by
          simp only [batchVictims, start, swept, ok_bind]
        have stock := unlinked.stocked_iff distinct member reusable inOrder pageNum
        rw [step, ← stock]
        refine (ih (unlinked.nodes ▸ distinct.erase j) (fun m there => ?_) unlinked.hand (fun m there => ?_)
          (mpageIds ++ [j])).imp_left ?_
        · rw [unlinked.capacity]
          exact inside m (later there).2
        · exact (inOrder m (later there).2).withdraw reusable.1 (later there).1
        · rintro ⟨stocked, result, taken, r', pt', ran, done, empties⟩
          refine ⟨stocked, result, j :: taken, r', pt', ?_, unlinked.batchDone distinct member reusable inOrder done empties,
            fun page empty => empties page (reusable.1.withdraw_empty empty)⟩
          rw [ran, List.append_assoc, List.singleton_append]

end SieveReplacer_v3

end Gbp
