import GraphBufferPool.Replacer.Clocks
import GraphBufferPool.Replacer.IndexedAgreement
import GraphBufferPool.Replacer.LFU
import GraphBufferPool.Replacer.Nodes
import GraphBufferPool.Replacer.TwoQueues

/-! # Hits on tracked frames

`BufferPool::Pin` asserts that `Promote` returns true. For eight of the eleven replacers it does on every tracked frame;
`SieveReplacer_v2` asks the links first, which takes sentinels with indices of their own, and the other two have a
counter for each frame.
-/

namespace Gbp

open Fuel

namespace SieveReplacer

theorem skipVisited_map {fuel i : ℕ} {r r' : SieveReplacer} {start : Option ℕ}
    (ran : skipVisited fuel r start = .ok (i, r')) : r'.map = r.map := by
  induction fuel generalizing r start with
  | zero =>
    cases start with
    | none => cases ran
    | some j =>
      rw [skipVisited] at ran
      split_ifs at ran with clear
      cases ran
      rfl
  | succ fuel ih =>
    cases start with
    | none => cases ran
    | some j =>
      rw [skipVisited] at ran
      split_ifs at ran with clear
      · cases ran
        rfl
      · have kept := ih ran
        exact kept

theorem victimLoop_map {count : ℕ} {pt : PageTable} {r : SieveReplacer} {start : Option ℕ}
    {result : Option ℕ × SieveReplacer × PageTable} (ran : victimLoop pt count r start = .ok result) :
    result.2.1.map = r.map := by
  induction count generalizing pt r start with
  | zero =>
    cases ran
    rfl
  | succ count ih =>
    obtain ⟨⟨i, middle⟩, skipped, ran⟩ := bind_eq_ok.mp ran
    obtain ⟨⟨taken, table⟩, _, ran⟩ := bind_eq_ok.mp ran
    have kept := skipVisited_map skipped
    cases taken with
    | true =>
      cases ran
      exact kept
    | false => exact (ih ran).trans kept

theorem keeps : Keeps SieveReplacer (fun _ => True) fun r m => m ∈ r.map where
  constructed _ _ _ := trivial
  insert r r' m inserted _ ran := by
    have result : r.insert m = (inserted, r') := Except.ok.inj ran
    unfold insert at result
    split_ifs at result with known
    · cases result
      exact ⟨trivial, known, fun _ member => member⟩
    · cases result
      exact ⟨trivial, Finset.mem_insert_self .., fun _ member => Finset.mem_insert_of_mem member⟩
  promote r r' m promoted _ ran := by
    have result : r.promote m = (promoted, r') := Except.ok.inj ran
    unfold promote at result
    split_ifs at result <;> cases result <;> exact ⟨trivial, fun _ member => member⟩
  victim fuel r r' pt pt' taken _ ran := by
    refine ⟨trivial, fun k member other => ?_⟩
    have ran : victim r pt = .ok (taken, r', pt') := ran
    unfold victim at ran
    split at ran
    · cases ran
      exact member
    · obtain ⟨⟨found, after, table⟩, swept, ran⟩ := bind_eq_ok.mp ran
      have map : after.map = r.map := victimLoop_map swept
      cases found with
      | none =>
        cases ran
        exact map.symm ▸ member
      | some i =>
        cases ran
        exact Finset.mem_erase.mpr ⟨by simpa [eq_comm] using other, map.symm ▸ member⟩

theorem promotes : PromotesWhen SieveReplacer fun _ _ => True :=
  keeps.promotesWhen fun _ _ _ known => iff_of_true ⟨_, congrArg Except.ok (if_pos known)⟩ trivial

end SieveReplacer

namespace SieveReplacer_v2

open SieveReplacer_v3

theorem skipVisited_nodes {fuel i : ℕ} {list list' : ListArray} {start : ListIndex}
    (ran : skipVisited fuel list start = .ok (i, list')) :
    list'.nodes = list.nodes ∧ list'.capacity = list.capacity := by
  induction fuel generalizing list start with
  | zero =>
    cases start with
    | head | invalid => cases ran
    | node j =>
      rw [skipVisited] at ran
      split_ifs at ran with clear
      cases ran
      exact ⟨rfl, rfl⟩
  | succ fuel ih =>
    cases start with
    | head | invalid => cases ran
    | node j =>
      rw [skipVisited] at ran
      split_ifs at ran with clear
      · cases ran
        exact ⟨rfl, rfl⟩
      · have kept := ih ran
        exact kept

theorem victimLoop_nodes {count : ℕ} {pt : PageTable} {list : ListArray} {start : ListIndex}
    {result : ℕ × ListArray × PageTable} (ran : victimLoop pt count list start = .ok result) :
    result.2.1.nodes = list.nodes ∧ result.2.1.capacity = list.capacity := by
  induction count generalizing pt list start with
  | zero => cases ran
  | succ count ih =>
    obtain ⟨⟨i, middle⟩, skipped, ran⟩ := bind_eq_ok.mp ran
    obtain ⟨⟨taken, table⟩, _, ran⟩ := bind_eq_ok.mp ran
    obtain ⟨nodes, capacity⟩ := skipVisited_nodes skipped
    cases taken with
    | true =>
      cases ran
      exact ⟨nodes, capacity⟩
    | false =>
      obtain ⟨nodes', capacity'⟩ := ih ran
      exact ⟨nodes'.trans nodes, capacity'.trans capacity⟩

theorem keeps : Keeps SieveReplacer_v2 (fun r => ∀ i ∈ r.list.nodes, i < r.list.capacity)
    fun r m => m ∈ r.list.nodes where
  constructed _ r made := by
    have made : r = new _ := made
    subst made
    exact nofun
  insert r r' m inserted inside ran := by
    have ran : insert r m = .ok (inserted, r') := ran
    simp only [insert] at ran
    by_cases outside : r.list.capacity + 2 ≤ m
    · rw [if_pos outside] at ran
      cases ran
    rw [if_neg outside] at ran
    by_cases linked : r.list.inList m = true
    · rw [if_pos linked] at ran
      cases ran
      exact ⟨inside, of_decide_eq_true linked, fun _ member => member⟩
    rw [if_neg linked] at ran
    by_cases past : r.list.capacity ≤ m
    · rw [if_pos past] at ran
      cases ran
    · simp only [ListArray.moveToFront, ListArray.setValue, past, if_false] at ran
      cases ran
      refine ⟨fun i member => ?_, List.mem_cons_self .., fun k member => ?_⟩
      · rcases List.mem_cons.mp member with rfl | earlier
        · exact Nat.lt_of_not_le past
        · exact inside i (List.mem_of_mem_erase earlier)
      · exact mem_front member
  promote r r' m promoted inside ran := by
    have ran : promote r m = .ok (promoted, r') := ran
    rw [promote] at ran
    split_ifs at ran with outside linked past <;> cases ran <;> exact ⟨inside, fun _ member => member⟩
  victim fuel r r' pt pt' taken inside ran := by
    have ran : victim r pt = .ok (taken, r', pt') := ran
    simp only [victim] at ran
    by_cases empty : (if r.pointer = .head then r.list.getTail else r.pointer) = .head
    · rw [if_pos empty] at ran
      cases ran
    · rw [if_neg empty] at ran
      obtain ⟨⟨i, list, table⟩, swept, ran⟩ := bind_eq_ok.mp ran
      have nodes : list.nodes = r.list.nodes := (victimLoop_nodes swept).1
      have capacity : list.capacity = r.list.capacity := (victimLoop_nodes swept).2
      cases ran
      simp only [ListArray.removeFromIndex, nodes, capacity]
      split_ifs with past
      · exact ⟨by simpa only [nodes, capacity] using inside, fun k member _ => nodes.symm ▸ member⟩
      · refine ⟨fun k member => inside k (List.mem_of_mem_erase member), fun k member other => ?_⟩
        exact (List.mem_erase_of_ne (by simpa [eq_comm] using other)).mpr member

theorem promotes : PromotesWhen SieveReplacer_v2 fun _ _ => True := by
  apply keeps.promotesWhen
  intro r m inside member
  refine iff_of_true ⟨{ r with list := r.list.setValue m 1 }, ?_⟩ trivial
  have linked : r.list.inList m = true := decide_eq_true member
  have room := inside m member
  simp only [Policy.promote, promote, linked, if_neg (Nat.not_le.mpr room), if_true,
    if_neg (Nat.not_le.mpr (Nat.lt_add_right 2 room))]
  rfl

end SieveReplacer_v2

namespace Indexed

variable {capacity : ℕ}

theorem ListArray.moveToFront_capacity (list : ListArray ℕ) (i : ℕ) :
    (list.moveToFront i).2.capacity = list.capacity := by
  rw [ListArray.moveToFront]
  split_ifs <;> rfl

theorem ListArray.removeFromIndex_capacity (list : ListArray ℕ) (i : ℕ) :
    (list.removeFromIndex i).2.capacity = list.capacity := by
  rw [ListArray.removeFromIndex]
  split_ifs <;> rfl

theorem ListArray.skip_capacity {lower : ℕ → ℕ} {fuel start i : ℕ} {list list' : ListArray ℕ}
    (ran : list.skip lower fuel start = .ok (i, list')) : list'.capacity = list.capacity := by
  induction fuel generalizing list start with
  | zero =>
    rw [ListArray.skip] at ran
    split_ifs at ran with past clear
    cases ran
    rfl
  | succ fuel ih =>
    rw [ListArray.skip] at ran
    split_ifs at ran with past clear
    · cases ran
      rfl
    · have kept := ih ran
      exact kept

namespace SieveReplacer_v3

theorem victimLoop_capacity {count start : ℕ} {pt : PageTable} {list : ListArray ℕ} {result : ℕ × ListArray ℕ × PageTable}
    (ran : victimLoop pt count list start = .ok result) : result.2.1.capacity = list.capacity := by
  induction count generalizing pt list start with
  | zero => cases ran
  | succ count ih =>
    obtain ⟨⟨i, middle⟩, skipped, ran⟩ := bind_eq_ok.mp ran
    obtain ⟨⟨taken, table⟩, -, ran⟩ := bind_eq_ok.mp ran
    have kept := ListArray.skip_capacity skipped
    cases taken with
    | true =>
      cases ran
      exact kept
    | false => exact (ih ran).trans kept

theorem keeps : Keeps SieveReplacer_v3 (fun _ => True) fun r m => m < r.list.capacity where
  constructed _ _ _ := trivial
  insert r r' m inserted _ ran := by
    have ran : insert r m = .ok (inserted, r') := ran
    rw [insert] at ran
    split_ifs at ran with past
    · cases ran
    · have kept : ((r.list.setValue m 0).moveToFront m).2.capacity = r.list.capacity := ListArray.moveToFront_capacity ..
      generalize (r.list.setValue m 0).moveToFront m = moved at kept ran
      obtain ⟨-, -, ran⟩ := bind_eq_ok.mp ran
      cases ran
      rw [kept]
      exact ⟨trivial, Nat.lt_of_not_le past, fun _ earlier => earlier⟩
  promote r r' m promoted _ ran := by
    have ran : promote r m = .ok (promoted, r') := ran
    rw [promote] at ran
    split_ifs at ran with past <;> cases ran
    exact ⟨trivial, fun _ earlier => earlier⟩
  victim fuel r r' pt pt' taken _ ran := by
    have ran : victim r pt = .ok (taken, r', pt') := ran
    simp only [victim] at ran
    split_ifs at ran with empty
    · cases ran
    · obtain ⟨⟨i, list, table⟩, swept, ran⟩ := bind_eq_ok.mp ran
      have kept : list.capacity = r.list.capacity := victimLoop_capacity swept
      cases ran
      rw [ListArray.removeFromIndex_capacity, kept]
      exact ⟨trivial, fun _ inside _ => inside⟩

theorem promotes : PromotesWhen SieveReplacer_v3 fun _ _ => True := by
  apply keeps.promotesWhen
  intro r m _ inside
  refine iff_of_true ⟨{ r with list := r.list.setValue m 1 }, ?_⟩ trivial
  simp only [Policy.promote, promote, if_neg (Nat.not_le.mpr inside)]
  rfl

end SieveReplacer_v3

namespace SieveReplacer_v2

/-- The replacer of so many frames after `Insert` of one of them. -/
def oneInserted (capacity m : ℕ) : SieveReplacer_v2 :=
  ⟨(((ListArray.new capacity).setValue m 0).moveToFront m).2, ListArray.head capacity⟩

theorem oneInserted_tracks {m : ℕ} (inside : m < capacity) (fresh : (ListArray.new capacity : ListArray ℕ).inList m = false) :
    Tracks capacity (oneInserted capacity m) {m} := by
  have ran : Policy.insert (new capacity) m = .ok (true, oneInserted capacity m) := by
    have within : ¬ (ListArray.new capacity : ListArray ℕ).capacity + 2 ≤ m := Nat.not_le.mpr (Nat.lt_add_right 2 inside)
    have room : ¬ (ListArray.new capacity : ListArray ℕ).capacity ≤ m := Nat.not_le.mpr inside
    simp only [Policy.insert, insert, new, oneInserted, within, room, fresh, Bool.false_eq_true, if_false]
    rw [ListArray.moveToFront]
    simp only [ListArray.setValue, room, if_false]
    rfl
  exact (Tracks.new (r := new capacity) rfl).insert ran

/-- `Promote` misses a frame that the links do not show. -/
theorem not_promotesIn {m : ℕ} (inside : m < capacity) (fresh : (ListArray.new capacity : ListArray ℕ).inList m = false)
    (hidden : (oneInserted capacity m).list.inList m = false) :
    ¬ PromotesIn SieveReplacer_v2 capacity fun _ _ => True := by
  intro promotes
  obtain ⟨r', ran⟩ := (promotes _ _ (oneInserted_tracks inside fresh) m (Finset.mem_singleton_self m)).mpr trivial
  simp only [Policy.promote, promote, hidden, Bool.false_eq_true, if_false] at ran
  split_ifs at ran
  all_goals cases ran

/-- Of the sizes that an index can have, all but the last two leave the sentinels indices of their own. -/
theorem promotes_iff (index : capacity < indexRange) :
    PromotesIn SieveReplacer_v2 capacity (fun _ _ => True) ↔ capacity < indexRange - 2 := by
  constructor
  · intro promotes
    by_contra large
    rcases (show capacity = indexRange - 2 ∨ capacity = indexRange - 1 by omega) with rfl | rfl
    · exact not_promotesIn (m := 0) (by decide) (by decide) (by decide) promotes
    · exact not_promotesIn (m := 1) (by decide) (by decide) (by decide) promotes
  · intro fits
    refine corresponds.promotesIn (fun r made => ?_) (Gbp.SieveReplacer_v2.promotes capacity)
    obtain rfl : r = new capacity := made
    exact ⟨.new capacity, rfl, simulates_new fits⟩

end SieveReplacer_v2

end Indexed

namespace Heap

variable {capacity : ℕ}

namespace LRUReplacer

theorem keeps : Keeps LRUReplacer (fun _ => True) fun r m => m ∈ r.nodes.map where
  constructed _ _ _ := trivial
  insert r r' m inserted _ ran := by
    have result : r.insert m = (inserted, r') := Except.ok.inj ran
    unfold insert NodeMap.insert at result
    split_ifs at result with known
    · cases result
      exact ⟨trivial, known, fun _ member => member⟩
    · cases result
      exact ⟨trivial, Finset.mem_insert_self .., fun _ member => Finset.mem_insert_of_mem member⟩
  promote r r' m promoted _ ran := by
    have result : r.promote m = (promoted, r') := Except.ok.inj ran
    unfold promote at result
    split_ifs at result <;> cases result <;> exact ⟨trivial, fun _ member => member⟩
  victim fuel r r' pt pt' taken _ ran := by
    refine ⟨trivial, fun k member other => ?_⟩
    obtain ⟨⟨found, nodes, table⟩, searched, ran⟩ := bind_eq_ok.mp ran
    obtain ⟨⟨reached, left⟩, -, searched⟩ := bind_eq_ok.mp searched
    cases ran
    cases reached with
    | none =>
      cases searched
      exact member
    | some i =>
      cases searched
      exact Finset.mem_erase.mpr ⟨by simpa [eq_comm] using other, member⟩

theorem promotes : PromotesWhen LRUReplacer fun _ _ => True :=
  keeps.promotesWhen fun _ _ _ known => iff_of_true ⟨_, congrArg Except.ok (if_pos known)⟩ trivial

end LRUReplacer

namespace LRUReplacer_v2

open Indexed.ListArray (moveToFront_capacity removeFromIndex_capacity)

theorem keeps : Keeps LRUReplacer_v2 (fun _ => True) fun r m => m < r.list.capacity where
  constructed _ _ _ := trivial
  insert r r' m inserted _ ran := by
    have ran : insert r m = .ok (inserted, r') := ran
    rw [insert] at ran
    split_ifs at ran with past
    · cases ran
    · have kept : ((r.list.setValue m 0).moveToFront m).2.capacity = r.list.capacity := moveToFront_capacity ..
      generalize (r.list.setValue m 0).moveToFront m = moved at kept ran
      obtain ⟨-, -, ran⟩ := bind_eq_ok.mp ran
      cases ran
      rw [kept]
      exact ⟨trivial, Nat.lt_of_not_le past, fun _ earlier => earlier⟩
  promote r r' m promoted _ ran := by
    have ran : promote r m = .ok (promoted, r') := ran
    have kept : (r.list.moveToFront m).2.capacity = r.list.capacity := moveToFront_capacity ..
    rw [promote] at ran
    generalize r.list.moveToFront m = moved at kept ran
    obtain ⟨-, -, ran⟩ := bind_eq_ok.mp ran
    cases ran
    rw [kept]
    exact ⟨trivial, fun _ earlier => earlier⟩
  victim fuel r r' pt pt' taken _ ran := by
    refine ⟨trivial, fun k inside _ => ?_⟩
    obtain ⟨⟨found, list, table⟩, searched, ran⟩ := bind_eq_ok.mp ran
    obtain ⟨⟨reached, left⟩, -, searched⟩ := bind_eq_ok.mp searched
    cases ran
    cases reached with
    | none =>
      cases searched
      exact inside
    | some i =>
      cases searched
      exact (removeFromIndex_capacity r.list i).symm ▸ inside

theorem promotes : PromotesWhen LRUReplacer_v2 fun _ _ => True := by
  apply keeps.promotesWhen
  intro r m _ inside
  refine iff_of_true ⟨⟨(r.list.removeNode m).addNodeToFront m⟩, ?_⟩ trivial
  simp only [Policy.promote, promote, Indexed.ListArray.moveToFront, if_neg (Nat.not_le.mpr inside)]
  rfl

end LRUReplacer_v2

theorem FIFOReplacer.promotes : PromotesWhen FIFOReplacer fun _ _ => True :=
  fun _ r _ _ _ _ => iff_of_true ⟨r, rfl⟩ trivial

theorem FIFOReplacer_v2.promotes : PromotesWhen FIFOReplacer_v2 fun _ _ => True :=
  fun _ r _ _ _ _ => iff_of_true ⟨r, rfl⟩ trivial

namespace TwoQLRUReplacer

/-- The lists and the maps are in order, whatever the ages of the frames. -/
def InOrder (r : TwoQLRUReplacer) : Prop := ∃ q inactive active, AgeOrdered q r inactive active

/-- The frame has an iterator. -/
def Known (r : TwoQLRUReplacer) (m : ℕ) : Prop := r.activeMap m ≠ none ∨ r.inactiveMap m ≠ none

theorem AgeOrdered.known_iff {q : TwoAges} {r : TwoQLRUReplacer} {inactive active : List ℕ}
    (keeps : AgeOrdered q r inactive active) (m : ℕ) : r.Known m ↔ q.Tracks m := by
  rw [keeps.tracks_iff, Known, Ne, Ne, keeps.activeIndexed.eq_none_iff, keeps.inactiveIndexed.eq_none_iff, not_not,
    not_not, or_comm]

/-- What a search finds is in the list. -/
theorem mem_of_searchFrom {list : NodeList} {pt table : PageTable} {node : ℕ × ℕ}
    (ran : NodeList.searchFrom pt list = .ok (some node, table)) : node ∈ list := by
  induction list generalizing pt with
  | nil => cases ran
  | cons first rest ih =>
    obtain ⟨⟨taken, middle⟩, -, ran⟩ := bind_eq_ok.mp ran
    cases taken with
    | true =>
      cases ran
      exact List.mem_cons_self ..
    | false => exact List.mem_cons_of_mem _ (ih ran)

theorem AgeOrdered.keeps_others {q : TwoAges} {r : TwoQLRUReplacer} {inactive active : List ℕ} {m k : ℕ}
    (keeps : AgeOrdered (q.forget [m]) r inactive active) (other : k ≠ m) (tracked : q.Tracks k) : r.Known k := by
  rw [keeps.known_iff]
  simpa [TwoAges.Tracks, TwoAges.forget, Ages.forget, other] using tracked

theorem keeps : Keeps TwoQLRUReplacer InOrder Known where
  constructed _ r made := by
    obtain rfl : r = new := made
    exact ⟨.start, [], [], .new⟩
  insert r r' m inserted good ran := by
    have result : r.insert m = (inserted, r') := Except.ok.inj ran
    obtain ⟨q, inactive, active, order⟩ := good
    by_cases tracked : q.Tracks m
    · rw [order.insert_tracked tracked] at result
      cases result
      exact ⟨⟨q, inactive, active, order⟩, (order.known_iff m).mpr tracked, fun _ known => known⟩
    · obtain ⟨r'', inserted, next⟩ := order.insert tracked
      rw [inserted] at result
      cases result
      refine ⟨⟨_, _, _, next⟩, (next.known_iff m).mpr ?_, fun k known => (next.known_iff k).mpr ?_⟩
      · simp [TwoAges.Tracks, Ages.touch]
      · have earlier := (order.known_iff k).mp known
        refine earlier.imp_left fun here => ?_
        simp [Ages.touch, here]
  promote r r' m promoted good ran := by
    have ran : promote r m = .ok (promoted, r') := ran
    obtain ⟨q, inactive, active, order⟩ := good
    by_cases tracked : q.Tracks m
    · obtain ⟨r'', inactive', active', moved, next⟩ := order.promote tracked
      rw [moved] at ran
      cases ran
      refine ⟨⟨_, _, _, next⟩, fun k known => (next.known_iff k).mpr ?_⟩
      have earlier := (order.known_iff k).mp known
      by_cases same : k = m
      · simp [TwoAges.Tracks, Ages.touch, same]
      · exact earlier.imp (fun here => by simp [Ages.forget, same, here]) fun here => by simp [Ages.touch, here]
    · rw [(order.refuses tracked).1] at ran
      cases ran
      exact ⟨⟨q, inactive, active, order⟩, fun _ known => known⟩
  victim fuel r r' pt pt' taken good ran := by
    have ran : victim r pt = .ok (taken, r', pt') := ran
    obtain ⟨q, inactive, active, order⟩ := good
    obtain ⟨⟨found, table⟩, searched, ran⟩ := bind_eq_ok.mp ran
    cases found with
    | some node =>
      have member := List.mem_reverse.mp (mem_of_searchFrom searched)
      obtain ⟨rest, erased, next⟩ := order.dropInactive ((order.inactiveIndexed.points node.2 node.1).mpr member)
      dsimp only at ran
      rw [erased, ok_bind] at ran
      cases ran
      refine ⟨⟨_, _, _, next⟩, fun k known other => next.keeps_others ?_ ((order.known_iff k).mp known)⟩
      simpa [eq_comm] using other
    | none =>
      obtain ⟨⟨found, table'⟩, searched', ran⟩ := bind_eq_ok.mp ran
      cases found with
      | some node =>
        have member := List.mem_reverse.mp (mem_of_searchFrom searched')
        obtain ⟨rest, erased, next⟩ := order.dropActive ((order.activeIndexed.points node.2 node.1).mpr member)
        dsimp only at ran
        rw [erased, ok_bind] at ran
        cases ran
        refine ⟨⟨_, _, _, next⟩, fun k known other => next.keeps_others ?_ ((order.known_iff k).mp known)⟩
        simpa [eq_comm] using other
      | none =>
        cases ran
        exact ⟨⟨q, inactive, active, order⟩, fun _ known _ => known⟩

theorem promotes : PromotesWhen TwoQLRUReplacer fun _ _ => True := by
  apply keeps.promotesWhen
  rintro r m ⟨q, inactive, active, order⟩ known
  obtain ⟨r', -, -, ran, -⟩ := order.promote ((order.known_iff m).mp known)
  exact iff_of_true ⟨r', ran⟩ trivial

end TwoQLRUReplacer

end Heap

/-- In every run, with what the memory of the nodes held before, each replacer promotes its tracked frames exactly under
its own condition. -/
theorem promote_tracked_iff (capacity : ℕ) :
    PromotesIn SieveReplacer capacity (fun _ _ => True) ∧
      (capacity < indexRange → (PromotesIn Indexed.SieveReplacer_v2 capacity (fun _ _ => True) ↔
        capacity < indexRange - 2)) ∧
      PromotesIn Indexed.SieveReplacer_v3 capacity (fun _ _ => True) ∧
      PromotesIn Heap.LRUReplacer capacity (fun _ _ => True) ∧
      PromotesIn Heap.LRUReplacer_v2 capacity (fun _ _ => True) ∧
      PromotesIn Heap.FIFOReplacer capacity (fun _ _ => True) ∧
      PromotesIn Heap.FIFOReplacer_v2 capacity (fun _ _ => True) ∧
      PromotesIn Heap.TwoQLRUReplacer capacity (fun _ _ => True) ∧
      PromotesIn ClockReplacer_v2 capacity (fun _ _ => True) ∧
      PromotesIn ClockReplacer capacity (fun r m => r.freq m < ClockReplacer.maxFreq) ∧
      PromotesIn LFUReplacer capacity (fun r m => r.freqMap ((r.freq m + 1) % freqRange) ≠ some none) :=
  ⟨SieveReplacer.promotes capacity, Indexed.SieveReplacer_v2.promotes_iff, Indexed.SieveReplacer_v3.promotes capacity,
    Heap.LRUReplacer.promotes capacity, Heap.LRUReplacer_v2.promotes capacity, Heap.FIFOReplacer.promotes capacity,
    Heap.FIFOReplacer_v2.promotes capacity, Heap.TwoQLRUReplacer.promotes capacity, ClockReplacer_v2.promotes capacity,
    ClockReplacer.promotes capacity, LFUReplacer.promotes capacity⟩

namespace ClockReplacer

/-- A replacer in cleared memory after `Insert(0)` and that many hits on it. -/
def afterHits (hits : ℕ) : ClockReplacer :=
  { nodes := [0], freq := Function.update (fun _ => 0) 0 hits, map := {0}, fresh := fun _ => 0 }

theorem afterHits_tracks (hits : ℕ) (low : hits ≤ maxFreq) : Tracks 1 (afterHits hits) {0} := by
  induction hits with
  | zero =>
    have made : Tracks 1 (new fun _ => 0) ∅ := .new ⟨_, rfl⟩
    have ran : Policy.insert (new fun _ => 0) 0 = .ok (true, afterHits 0) := rfl
    exact made.insert ran
  | succ hits ih =>
    have below : hits < maxFreq := low
    have ran : Policy.promote (afterHits hits) 0 = .ok (true, afterHits (hits + 1)) := by
      have count : (afterHits hits).freq 0 = hits := by simp only [afterHits, Function.update_self]
      refine congrArg Except.ok ?_
      have known : 0 ∈ (afterHits hits).map := Finset.mem_singleton_self 0
      rw [promote, if_pos known, count, if_pos below]
      simp only [afterHits, Function.update_idem]
    exact (ih (Nat.le_of_lt below)).promote ran

end ClockReplacer

/-- The 101st hit on a frame of `ClockReplacer` fails. -/
theorem clock_promote_fails : ¬ PromotesWhen ClockReplacer fun _ _ => True := by
  intro promotes
  have run := ClockReplacer.afterHits_tracks ClockReplacer.maxFreq le_rfl
  obtain ⟨r', promoted⟩ := (promotes 1 _ _ run 0 (Finset.mem_singleton_self 0)).mpr trivial
  cases promoted

end Gbp
