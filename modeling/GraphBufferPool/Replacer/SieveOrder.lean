import GraphBufferPool.Lib.SecondChance
import GraphBufferPool.Replacer.Sieve

/-! # The order of the victims

`Victim` of `SieveReplacer_v3` gives every marked frame a second chance. So the order in which it takes the unpinned
frames is settled by the list, the marks and the hand: an `Insert` finds a place for the new frame in it, a `Promote`
moves one frame, and a `Victim` takes the first, or fails there if the file of its page is deregistered.
-/

namespace Gbp

open Function Relation SecondChance

/-- The linked frames in the order in which a sweep from this index meets them. -/
def ListArray.sweep (nodes : List ℕ) : ListIndex → List ℕ
  | .node i => nodes.reverse.dropWhile (· ≠ i) ++ nodes.reverse.takeWhile (· ≠ i)
  | _ => nodes.reverse

namespace ListArray

variable {list : ListArray} {i : ℕ} {before after : List ℕ}

theorem sweep_node (fresh : i ∉ after) : sweep (before ++ i :: after) (.node i) =
    i :: before.reverse ++ after.reverse := by
  have skipped : ∀ j ∈ after.reverse, decide (j ≠ i) = true := by
    intro j member
    exact decide_eq_true (ne_of_mem_of_not_mem (List.mem_reverse.mp member) fresh)
  rw [sweep, List.reverse_append, List.reverse_cons, List.append_assoc,
    List.dropWhile_append_of_pos skipped, List.takeWhile_append_of_pos skipped]
  simp

/-- The neighbour of a frame is the last one in front of it. -/
theorem prevIn_append {start : ListIndex} (fresh : i ∉ before) : prevIn start (before ++ i :: after) i =
    (before.getLast?.map ListIndex.node).getD start := by
  induction before generalizing start with
  | nil => simp [prevIn]
  | cons first rest ih =>
    have apart : first ≠ i := fun same => fresh (same ▸ List.mem_cons_self)
    have later := @ih (.node first) fun member => fresh (List.mem_cons_of_mem _ member)
    rw [List.cons_append, prevIn, if_neg apart, later]
    cases rest with
    | nil => rfl
    | cons second rest => simp [List.getLast?_cons]

theorem sweep_start : sweep list.nodes list.getTail = list.nodes.reverse := by
  cases last : list.nodes.getLast? with
  | none => simp [getTail, last, sweep]
  | some i =>
    obtain ⟨before, split⟩ := List.getLast?_eq_some_iff.mp last
    have swept := @sweep_node i before [] List.not_mem_nil
    rw [split, getTail, last]
    simpa using swept

/-- The sweep goes on behind the frame it is at, also where that is taken away. -/
theorem exists_sweep (distinct : list.nodes.Nodup) (linked : i ∈ list.nodes) :
    ∃ rest, sweep list.nodes (.node i) = i :: rest ∧ sweep list.nodes (list.sweepFrom i) = rest ++ [i] ∧
      sweep (list.nodes.erase i) (list.getPrevNodeIndex i) = rest := by
  obtain ⟨before, after, split⟩ := List.append_of_mem linked
  have parts := distinct
  rw [split, List.nodup_append, List.nodup_cons] at parts
  obtain ⟨_, ⟨late, _⟩, apart⟩ := parts
  have early : i ∉ before := fun member => apart i member i List.mem_cons_self rfl
  have erased : list.nodes.erase i = before ++ after := by
    rw [split, List.erase_append_right _ early, List.erase_cons_head]
  have prev : list.getPrevNodeIndex i = (before.getLast?.map ListIndex.node).getD .head := by
    rw [getPrevNodeIndex, split, prevIn_append early]
  refine ⟨before.reverse ++ after.reverse, by rw [split, sweep_node late, List.cons_append], ?_, ?_⟩
  · cases last : before.getLast? with
    | none =>
      obtain rfl := List.getLast?_eq_none_iff.mp last
      rw [sweepFrom, prev, last, Option.map_none, Option.getD_none, if_pos rfl, sweep_start, split]
      simp
    | some j =>
      obtain ⟨front, rfl⟩ := List.getLast?_eq_some_iff.mp last
      have later : j ∉ i :: after := by
        intro member
        exact apart j (by simp) j member rfl
      have swept := @sweep_node j front (i :: after) later
      rw [sweepFrom, prev, last, Option.map_some, Option.getD_some, if_neg (by simp), split, List.append_assoc,
        List.singleton_append, swept]
      simp
  · rw [erased, prev]
    cases last : before.getLast? with
    | none =>
      obtain rfl := List.getLast?_eq_none_iff.mp last
      simp [sweep]
    | some j =>
      obtain ⟨front, rfl⟩ := List.getLast?_eq_some_iff.mp last
      have later : j ∉ after := fun member => apart j (by simp) j (List.mem_cons_of_mem _ member) rfl
      have swept := @sweep_node j front after later
      rw [Option.map_some, Option.getD_some, List.append_assoc, List.singleton_append, swept]
      simp

theorem sweep_perm (nodes : List ℕ) (index : ListIndex) : (sweep nodes index).Perm nodes := by
  cases index with
  | node i =>
    refine (List.perm_append_comm).trans ?_
    rw [List.takeWhile_append_dropWhile]
    exact nodes.reverse_perm
  | head | invalid => exact nodes.reverse_perm

end ListArray

/-- The frame is not pinned. -/
def PageTable.unpinned (pt : PageTable) (m : ℕ) : Bool := (pt.ptes m).refCount = 0

/-- Of the unpinned frames among these, each is evictable or was left by a closed file. -/
def PageTable.Clear (pt : PageTable) (frames : List ℕ) : Prop :=
  ∀ m ∈ frames, (pt.ptes m).refCount = 0 → pt.Evictable m ∨ pt.word? (pt.ptes m).page = none

namespace SieveReplacer_v3

/-- The frames in the order in which `Victim` takes the unpinned ones. -/
def evictionOrder (r : SieveReplacer_v3) : List ℕ := order r.list.val (ListArray.sweep r.list.nodes r.pointer)

/-- What a sweep that is at this frame has in front of it. -/
abbrev ring (list : ListArray) (i : ℕ) : List ℕ × (ℕ → ℕ) := (ListArray.sweep list.nodes (.node i), list.val)

variable {list list' : ListArray} {pt table : PageTable} {fuel count i j m : ℕ}

theorem Sound.fair (sound : Sound list) (i : ℕ) : Fair (ring list i) :=
  ⟨(ListArray.sweep_perm list.nodes (.node i)).nodup_iff.mpr sound.distinct,
    fun k member => sound.marked k ((ListArray.sweep_perm list.nodes (.node i)).mem_iff.mp member)⟩

/-- The inner loop turns to an unmarked frame. -/
theorem skipMarked_turns (free : ℕ → Bool) (distinct : list.nodes.Nodup) (linked : i ∈ list.nodes)
    (ran : skipMarked fuel list (.node i) = .ok (j, list')) :
    ReflTransGen (Turn free) (ring list i) (ring list' j) ∧ list'.val j = 0 ∧ Lowered list list' ∧ j ∈ list.nodes := by
  induction fuel generalizing list i with
  | zero =>
    rw [skipMarked] at ran
    split_ifs at ran with zero
    cases ran
    exact ⟨.refl, zero, .refl _, linked⟩
  | succ fuel ih =>
    rw [skipMarked] at ran
    split_ifs at ran with zero
    · cases ran
      exact ⟨.refl, zero, .refl _, linked⟩
    · obtain ⟨k, later, moved⟩ := ListArray.exists_sweepFrom linked
      obtain ⟨rest, here, next, _⟩ := ListArray.exists_sweep distinct linked
      dsimp only at ran
      rw [ListArray.sweepFrom_setValue, moved] at ran
      have linked' : k ∈ (list.setValue i (list.val i - 1)).nodes := later
      have distinct' : (list.setValue i (list.val i - 1)).nodes.Nodup := distinct
      obtain ⟨turns, unmarked, lowered, member⟩ := ih distinct' linked' ran
      have turn : Turn free (ring list i) (ring (list.setValue i (list.val i - 1)) k) := by
        rw [moved] at next
        rw [ring, ring, here, show (list.setValue i (list.val i - 1)).nodes = list.nodes from rfl, next]
        exact .lower (Nat.pos_of_ne_zero zero)
      exact ⟨.head turn turns, unmarked, (lowered_setValue list i).trans lowered, member⟩

/-- The outer loop turns to an unpinned unmarked frame. -/
theorem victimLoop_turns (distinct : list.nodes.Nodup) (clear : pt.Clear list.nodes) (linked : i ∈ list.nodes)
    (ran : victimLoop pt count list (.node i) = .ok (j, list', table)) :
    ReflTransGen (Turn pt.unpinned) (ring list i) (ring list' j) ∧ list'.val j = 0 ∧ Lowered list list' ∧
      j ∈ list.nodes ∧ pt.Evictable j ∧ table = pt.lockFrame (pt.ptes j).page j := by
  induction count generalizing list i with
  | zero => cases ran
  | succ count ih =>
    rw [victimLoop] at ran
    obtain ⟨⟨k, middle⟩, skipped, ran⟩ := bind_eq_ok.mp ran
    obtain ⟨turns, unmarked, lowered, member⟩ := skipMarked_turns pt.unpinned distinct linked skipped
    dsimp only at ran
    split_ifs at ran with held
    · have there : k ∈ middle.nodes := lowered.nodes ▸ member
      obtain ⟨next, later, moved⟩ := ListArray.exists_sweepFrom there
      obtain ⟨rest, here, rotated, _⟩ := ListArray.exists_sweep (lowered.nodes ▸ distinct) there
      rw [moved] at ran rotated
      obtain ⟨turns', unmarked', lowered', member', result⟩ :=
        ih (lowered.nodes ▸ distinct) (lowered.nodes ▸ clear) later ran
      have turn : Turn pt.unpinned (ring middle k) (ring middle next) := by
        rw [ring, ring, here, rotated]
        exact .pass (decide_eq_false held)
      exact ⟨(turns.tail turn).trans turns', unmarked', lowered.trans lowered', lowered.nodes ▸ member', result⟩
    · rcases clear k member (not_not.mp held) with evictable | gone
      · rw [evictable.takes, ok_bind] at ran
        dsimp only at ran
        have unchanged : ((pt.lockFrame (pt.ptes k).page k).ptes k).refCount = 0 := by
          simp [PageTable.lockFrame, evictable.2.2]
        rw [if_pos ⟨unchanged, by simp⟩] at ran
        cases ran
        exact ⟨turns, unmarked, lowered, member, evictable, rfl⟩
      · rw [PageTable.lockMapping_none gone, error_bind] at ran
        cases ran

/-- Enough tries reach the first frame of the order, if it is evictable. -/
theorem exists_victimLoop_of_first {rest : List ℕ} (sound : Sound list) (clear : pt.Clear list.nodes)
    (linked : i ∈ list.nodes)
    (first : (order list.val (ListArray.sweep list.nodes (.node i))).filter pt.unpinned = m :: rest)
    (evictable : pt.Evictable m) (member : m ∈ list.nodes) (enough : closeness list m i < count) :
    ∃ result, victimLoop pt count list (.node i) = .ok result := by
  induction count generalizing list i with
  | zero => omega
  | succ count ih =>
    obtain ⟨k, middle, skipped, lowered, here, closer⟩ := exists_skipMarked sound.distinct linked
      (Nat.le_succ list.marks)
    obtain ⟨turns, unmarked, _⟩ := skipMarked_turns pt.unpinned sound.distinct linked skipped
    have sound' := lowered.sound sound
    rw [← order_of_turns turns (sound.fair i)] at first
    have there : k ∈ middle.nodes := lowered.nodes ▸ here
    obtain ⟨rest', front, rotated, _⟩ := ListArray.exists_sweep sound'.distinct there
    rw [victimLoop, skipped, ok_bind]
    dsimp only
    by_cases held : (pt.ptes k).refCount = 0
    · -- an unpinned frame at the hand is the first of the order
      obtain rfl : k = m := by
        have unpinned : pt.unpinned k = true := decide_eq_true held
        dsimp only [ring] at first
        rw [front, order_cons unmarked, List.filter_cons_of_pos unpinned] at first
        exact (List.cons.inj first).1
      have unchanged : ((pt.lockFrame (pt.ptes k).page k).ptes k).refCount = 0 := by
        simp [PageTable.lockFrame, held]
      rw [if_neg (not_not.mpr held), evictable.takes, ok_bind]
      dsimp only
      rw [if_pos ⟨unchanged, by simp⟩]
      exact ⟨_, rfl⟩
    · rw [if_pos held]
      have other : k ≠ m := by
        rintro rfl
        exact held evictable.2.2
      have member' : m ∈ middle.nodes := lowered.nodes ▸ member
      obtain ⟨next, later, moved, step⟩ := ListArray.exists_sweepFrom_distance sound'.distinct there member'
      rw [if_neg other] at step
      rw [moved] at rotated ⊢
      have bound := closer m member
      have turn : Turn pt.unpinned (ring middle k) (ring middle next) := by
        rw [ring, ring, front, rotated]
        exact .pass (decide_eq_false held)
      rw [← turn.order_eq (sound'.fair k)] at first
      exact ih sound' (lowered.nodes ▸ clear) later first member' (by unfold closeness at *; omega)

variable {r r' : SieveReplacer_v3}

/-- The sweep of `Victim` starts where the hand is. -/
theorem sweep_hand (start : (if r.pointer = .head then r.list.getTail else r.pointer) = .node i) :
    ListArray.sweep r.list.nodes (.node i) = ListArray.sweep r.list.nodes r.pointer := by
  rw [← start]
  split_ifs with head
  · rw [ListArray.sweep_start, head]
    rfl
  · rfl

/-- A victim is the first unpinned frame of the order, and leaves the order of the others. It was unmarked, or no
unpinned frame is marked after it. -/
theorem Ready.victim_order (ready : Ready r) (clear : pt.Clear r.list.nodes)
    (ran : r.victim pt = .ok (some m, r', table)) :
    r.evictionOrder.filter pt.unpinned = m :: r'.evictionOrder.filter pt.unpinned ∧
      (r.list.val m = 0 ∨ ∀ k ∈ r'.list.nodes, (pt.ptes k).refCount = 0 → r'.list.val k = 0) := by
  simp only [victim] at ran
  rcases HandValid.start ready.2 with ⟨head, _⟩ | ⟨i, linked, start⟩
  · rw [if_pos head] at ran
    cases ran
  · have hand := sweep_hand start
    rw [if_neg (by simp [start]), start] at ran
    obtain ⟨⟨j, list, locked⟩, swept, result⟩ := bind_eq_ok.mp ran
    obtain ⟨rfl, rfl, rfl⟩ : j = m ∧ ⟨list.removeFromIndex j, list.getPrevNodeIndex j⟩ = r' ∧
        locked = table := by
      simpa [pure, Except.pure] using result
    obtain ⟨turns, unmarked, lowered, member, evictable, _⟩ := victimLoop_turns ready.1.distinct clear linked swept
    have sound := lowered.sound ready.1
    have inside : ¬ list.capacity ≤ j := by
      rw [lowered.capacity]
      exact Nat.not_le.mpr (ready.1.inside j member)
    have removed : list.removeFromIndex j = { list with nodes := list.nodes.erase j } := by
      rw [ListArray.removeFromIndex, if_neg inside]
    obtain ⟨rest, here, _, taken⟩ := ListArray.exists_sweep sound.distinct (lowered.nodes ▸ member)
    have unpinned : pt.unpinned j = true := decide_eq_true evictable.2.2
    have kept := order_of_turns turns (ready.1.fair i)
    dsimp only [ring] at kept turns
    rw [here, hand, order_cons unmarked, List.filter_cons_of_pos unpinned] at kept
    refine ⟨?_, ?_⟩
    · rw [evictionOrder, ← kept, evictionOrder, removed]
      dsimp only
      rw [taken]
    · rw [here] at turns
      refine (unmarked_of_turns turns (ready.1.fair i) unmarked).imp_right fun bare k linked free => ?_
      rw [removed] at linked ⊢
      refine bare k ?_ (decide_eq_true free)
      rw [← here]
      exact (ListArray.sweep_perm _ _).mem_iff.mpr (List.mem_of_mem_erase linked)

theorem closeness_lt (sound : Sound list) (linked : i ∈ list.nodes) (member : m ∈ list.nodes) :
    closeness list m i < list.capacity * 2 := by
  have within : list.nodes ⊆ List.range list.capacity := fun k linked => List.mem_range.mpr (sound.inside k linked)
  have fits : list.nodes.length ≤ list.capacity := by
    simpa using (sound.distinct.subperm within).length_le
  have near := ListArray.distance_lt m linked
  have once := Nat.mul_le_mul_left list.nodes.length (sound.marked m member)
  unfold closeness
  omega

/-- `Victim` returns if the first unpinned frame of the order is evictable. -/
theorem Ready.exists_victim {rest : List ℕ} (ready : Ready r) (clear : pt.Clear r.list.nodes)
    (first : r.evictionOrder.filter pt.unpinned = m :: rest) (evictable : pt.Evictable m) :
    ∃ k r' table, r.victim pt = .ok (some k, r', table) := by
  have listed : m ∈ r.evictionOrder := (List.mem_filter.mp (first ▸ List.mem_cons_self)).1
  have member : m ∈ r.list.nodes := by
    apply (ListArray.sweep_perm r.list.nodes r.pointer).mem_iff.mp
    rcases List.mem_append.mp listed with there | there <;> exact (List.mem_filter.mp there).1
  rcases HandValid.start ready.2 with ⟨_, empty⟩ | ⟨i, linked, start⟩
  · simp [empty] at member
  · rw [evictionOrder, ← sweep_hand start] at first
    obtain ⟨⟨j, list, table⟩, swept⟩ := exists_victimLoop_of_first ready.1 clear linked first evictable member
      (closeness_lt ready.1 linked member)
    refine ⟨j, ⟨list.removeFromIndex j, list.getPrevNodeIndex j⟩, table, ?_⟩
    simp only [victim, start]
    rw [if_neg (by simp), swept]
    rfl

theorem evictionOrder_perm (r : SieveReplacer_v3) : r.evictionOrder.Perm r.list.nodes := by
  refine List.Perm.trans ?_ (ListArray.sweep_perm r.list.nodes r.pointer)
  have parts := List.filter_append_perm (fun k => decide (r.list.val k = 0)) (ListArray.sweep r.list.nodes r.pointer)
  simpa [evictionOrder, order] using parts

theorem mem_evictionOrder : m ∈ r.evictionOrder ↔ m ∈ r.list.nodes := r.evictionOrder_perm.mem_iff

/-- `Insert` links the frame, and it changes no other value. -/
theorem insert_returned (ran : r.insert m = .ok (true, r')) : m < r.list.capacity ∧
    r' = { r with list := { r.list.setValue m 0 with nodes := m :: r.list.nodes.erase m } } := by
  have inside : m < r.list.capacity := by
    by_contra past
    simp only [SieveReplacer_v3.insert, Nat.not_lt.mp past, if_true] at ran
    cases ran
  rw [insert_eq inside] at ran
  cases ran
  exact ⟨inside, rfl⟩

/-- `Promote` marks the frame, and nothing else. -/
theorem promote_returned (ran : r.promote m = .ok (true, r')) : r' = { r with list := r.list.setValue m 1 } := by
  have inside : m < r.list.capacity := by
    by_contra past
    simp only [SieveReplacer_v3.promote, Nat.not_lt.mp past, if_true] at ran
    cases ran
  rw [promote_eq inside] at ran
  cases ran
  rfl

/-- A new frame finds a place in the order of the others. -/
theorem Ready.order_insert (ready : Ready r) (fresh : m ∉ r.list.nodes) (ran : r.insert m = .ok (true, r')) :
    r'.evictionOrder.filter (· ≠ m) = r.evictionOrder := by
  have keeps {frames : List ℕ} (within : ∀ k ∈ frames, k ∈ r.list.nodes) : frames.filter (· ≠ m) = frames :=
    List.filter_eq_self.mpr fun k member => decide_eq_true (ne_of_mem_of_not_mem (within k member) fresh)
  obtain ⟨_, rfl⟩ := insert_returned ran
  have swept : (ListArray.sweep (m :: r.list.nodes) r.pointer).filter (· ≠ m) =
      ListArray.sweep r.list.nodes r.pointer := by
    rcases ready.2 with head | ⟨i, linked, here⟩
    · rw [head, ListArray.sweep, ListArray.sweep, List.reverse_cons, List.filter_append,
        keeps fun k member => List.mem_reverse.mp member]
      · simp
      · nofun
      · nofun
    · obtain ⟨before, after, split⟩ := List.append_of_mem linked
      have late : i ∉ after := by
        have parts := ready.1.distinct
        rw [split, List.nodup_append, List.nodup_cons] at parts
        exact parts.2.1.1
      have within (k : ℕ) (member : k ∈ i :: before.reverse ++ after.reverse) : k ∈ r.list.nodes := by
        rw [split]
        simp only [List.cons_append, List.mem_cons, List.mem_append, List.mem_reverse] at member ⊢
        tauto
      have kept := keeps within
      have swept := @ListArray.sweep_node i (m :: before) after late
      rw [List.cons_append] at swept
      rw [here, split, swept, ListArray.sweep_node late, ← kept]
      simp [List.filter_append, List.filter_cons]
  rw [evictionOrder, order_filter, List.erase_of_not_mem fresh, swept]
  exact order_congr fun k member => update_of_ne
    (ne_of_mem_of_not_mem ((ListArray.sweep_perm _ _).mem_iff.mp member) fresh) ..

/-- `Promote` moves one frame. -/
theorem order_promote (ran : r.promote m = .ok (true, r')) :
    r'.evictionOrder.filter (· ≠ m) = r.evictionOrder.filter (· ≠ m) := by
  obtain rfl := promote_returned ran
  rw [evictionOrder, order_filter, evictionOrder, order_filter]
  exact order_congr fun k member => update_of_ne (of_decide_eq_true (List.mem_filter.mp member).2) ..

end SieveReplacer_v3

end Gbp
