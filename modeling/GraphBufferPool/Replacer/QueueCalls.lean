import GraphBufferPool.Lib.Ages
import GraphBufferPool.Replacer.Linked

/-! # The queue replacers as queues

What the calls of `LRUReplacer`, `FIFOReplacer` and their versions on a `ListArray` do to the order of the
tracked frames, and that all four do just that: the searches find the first frame from the tail that they may
take, and whatever they take leaves the order of the others as it was.
-/

namespace Gbp

open Fuel Heap

/-- The answer of a queue replacer that holds its frames in this order, the latest first, and the order after
it. `promotes` tells an LRU from a FIFO. -/
def queueCall (promotes : Bool) (order : List ℕ) : ReplacerCall → ReplacerAnswer × List ℕ
  | .insert m => if m ∈ order then (.returned false, order) else (.returned true, m :: order)
  | .promote m => (.returned true, if promotes then m :: order.erase m else order)
  | .erase m => (.returned true, order.erase m)
  | .victim pt =>
    let found := order.reverse.find? pt.Evictable
    (.victim found (pt.lockFound found), order.filter (· ∉ found.toList))
  | .victims pt mpageIds pageNum =>
    let taken := (order.reverse.filter pt.Reusable).take pageNum
    (.victims (decide (pageNum = 0 ∨ mpageIds ++ taken ≠ [])) (mpageIds ++ taken) (taken.foldl .withdraw pt),
      order.filter (· ∉ taken))

section victims

variable {S : Type} [NodeQueue S] [LawfulNodeQueue S] {s : S} {capacity : ℕ} {order : List ℕ} {pt : PageTable}

open LawfulNodeQueue

/-- A single `Victim` takes the first evictable frame from the tail. -/
theorem victimFrom_returns (skipsPinned : Bool) (holds : Holds capacity s order) (inOrder : ∀ m ∈ order, pt.InOrder m) :
    ∃ s', Returns (fun fuel => victimFrom skipsPinned fuel s pt)
      (order.reverse.find? pt.Evictable, s', pt.lockFound (order.reverse.find? pt.Evictable)) ∧
        Holds capacity s' (order.filter (· ∉ (order.reverse.find? pt.Evictable).toList)) := by
  have inLine : ∀ m ∈ order.reverse, pt.InOrder m := fun m member => inOrder m (List.mem_reverse.mp member)
  have search (fuel : ℕ) (enough : order.length ≤ fuel) :
      NodeQueue.walk (PageTable.tryVictim skipsPinned) fuel s pt =
        .ok (order.reverse.find? pt.Evictable, pt.lockFound (order.reverse.find? pt.Evictable)) := by
    rw [walk capacity s order _ fuel pt holds enough, ← PageTable.searchFrom_eq_searchWith]
    exact PageTable.searchFrom_eq skipsPinned inLine
  cases found : order.reverse.find? pt.Evictable with
  | none =>
    refine ⟨s, ⟨order.length, fun fuel enough => ?_⟩, by simpa using holds⟩
    simp only [victimFrom, search fuel enough, found]
    rfl
  | some m =>
    have member : m ∈ order := List.mem_reverse.mp (List.mem_of_find?_eq_some found)
    refine ⟨NodeQueue.unlink s m, ⟨order.length, fun fuel enough => ?_⟩, ?_⟩
    · simp only [victimFrom, search fuel enough, found]
      rfl
    · rw [Option.toList_some, ← Ages.erase_eq_filter (nodup capacity s order holds)]
      exact unlink capacity s order holds m member

/-- What a search leaves of a line without what it found. -/
theorem filter_eq_cons_of_find? {p : ℕ → Prop} [DecidablePred p] {line : List ℕ} {m : ℕ} (distinct : line.Nodup)
    (found : line.find? p = some m) : line.filter p = m :: (line.erase m).filter p := by
  obtain ⟨holds, before, after, rfl, skipped⟩ := List.find?_eq_some_iff_append.mp found
  have fresh : m ∉ before := fun early => (List.nodup_append.mp distinct).2.2 m early m (by simp) rfl
  have none : before.filter p = [] := List.filter_eq_nil_iff.mpr fun k early => by simpa using skipped k early
  have one : (m :: after).filter p = m :: after.filter p := List.filter_cons_of_pos holds
  rw [List.erase_append_right _ fresh, List.erase_cons_head, List.filter_append, List.filter_append, none, one]
  rfl

/-- A batch `Victim` takes the first evictable clean frames from the tail, in this order. -/
theorem victimsFrom_returns (pageNum : ℕ) (mpageIds : List ℕ) (holds : Holds capacity s order)
    (inOrder : ∀ m ∈ order, pt.InOrder m) {taken : List ℕ}
    (eq : taken = (order.reverse.filter pt.Reusable).take pageNum) :
    ∃ s', Returns (fun fuel => victimsFrom fuel pageNum s pt mpageIds)
      (decide (pageNum = 0 ∨ mpageIds ++ taken ≠ []), mpageIds ++ taken, s', taken.foldl .withdraw pt) ∧
        Holds capacity s' (order.filter (· ∉ taken)) := by
  induction pageNum generalizing s pt order mpageIds taken with
  | zero =>
    rw [List.take_zero] at eq
    subst eq
    exact ⟨s, ⟨0, fun _ _ => by simp [victimsFrom]⟩, by simpa using holds⟩
  | succ pageNum ih =>
    have distinct := nodup capacity s order holds
    have search (fuel : ℕ) (enough : order.length ≤ fuel) : NodeQueue.walk PageTable.lockClean fuel s pt =
        .ok (order.reverse.find? pt.Reusable, pt.lockFound (order.reverse.find? pt.Reusable)) := by
      rw [walk capacity s order _ fuel pt holds enough]
      exact PageTable.searchClean_eq fun m member => inOrder m (List.mem_reverse.mp member)
    cases found : order.reverse.find? pt.Reusable with
    | none =>
      have nothing : order.reverse.filter pt.Reusable = [] := by
        refine List.filter_eq_nil_iff.mpr fun m member => ?_
        exact List.find?_eq_none.mp found m member
      rw [nothing, List.take_nil] at eq
      subst eq
      refine ⟨s, ⟨order.length, fun fuel enough => ?_⟩, by simpa using holds⟩
      simp only [victimsFrom, search fuel enough, found, ok_bind]
      cases mpageIds with
      | nil => rfl
      | cons i rest => simp [pure, Except.pure, PageTable.lockFound]
    | some m =>
      have member : m ∈ order := List.mem_reverse.mp (List.mem_of_find?_eq_some found)
      have reusable : pt.Reusable m := by simpa using List.find?_some found
      have others {k : ℕ} (later : k ∈ order.erase m) : pt.InOrder k ∧ k ≠ m := by
        obtain ⟨apart, earlier⟩ := distinct.mem_erase_iff.mp later
        exact ⟨inOrder k earlier, apart⟩
      have line : (order.reverse.erase m) = (order.erase m).reverse := by
        rw [Ages.erase_eq_filter distinct, Ages.erase_eq_filter (List.nodup_reverse.mpr distinct),
          List.filter_reverse]
      have same : (order.erase m).reverse.filter (pt.withdraw m).Reusable =
          (order.erase m).reverse.filter pt.Reusable := by
        refine List.filter_congr fun k later => ?_
        obtain ⟨known, apart⟩ := others (List.mem_reverse.mp later)
        rw [decide_eq_decide]
        exact known.reusable_withdraw reusable.1 apart
      rw [filter_eq_cons_of_find? (List.nodup_reverse.mpr distinct) found, line, ← same,
        List.take_succ_cons] at eq
      obtain ⟨s', ran, after⟩ := ih (mpageIds ++ [m]) (unlink capacity s order holds m member)
        (fun k later => (others later).1.withdraw reusable.1 (others later).2) rfl
      generalize ((order.erase m).reverse.filter (pt.withdraw m).Reusable).take pageNum = rest at eq ran after
      subst eq
      refine ⟨s', ?_, ?_⟩
      · obtain ⟨enough, ran⟩ := ran
        refine ⟨max order.length enough, fun fuel more => ?_⟩
        have rest := ran fuel (le_trans (le_max_right ..) more)
        simp only [victimsFrom, search fuel (le_trans (le_max_left ..) more), found, ok_bind, PageTable.lockFound]
        rw [reusable.1.delete, ok_bind]
        simpa using rest
      · have gap : order.filter (· ∉ m :: rest) = (order.erase m).filter (· ∉ rest) := by
          rw [Ages.erase_eq_filter distinct, List.filter_filter]
          refine List.filter_congr fun k _ => ?_
          simp [Bool.and_comm]
        rw [gap]
        exact after

end victims

/-- The replacer does with every call that is allowed what the queue does that it holds. -/
def FollowsQueue (R : Type) [FullPolicy R] (promotes : Bool) (Holds : R → List ℕ → Prop)
    (Allowed : List ℕ → ReplacerCall → Prop) : Prop :=
  ∀ r order call, Holds r order → Allowed order call → ∃ r', Answered r call (queueCall promotes order call).1 r' ∧
    Holds r' (queueCall promotes order call).2

/-- The calls of an LRU: new frames are inserted, tracked ones promoted and erased, and a single `Victim` finds the
tracked frames in order. -/
def LruCall (capacity : ℕ) (tracked : ℕ → Prop) : ReplacerCall → Prop
  | .insert m => m < capacity ∧ ¬ tracked m
  | .promote m => tracked m
  | .erase m => tracked m
  | .victim pt => ∀ m, tracked m → pt.InOrder m
  | .victims .. => False

/-- The calls of a FIFO: any frame is inserted and promoted, tracked ones are erased, and a `Victim` finds the
tracked frames in order. -/
def FifoCall (capacity : ℕ) (tracked : ℕ → Prop) : ReplacerCall → Prop
  | .insert m => m < capacity
  | .promote _ => True
  | .erase m => tracked m
  | .victim pt => ∀ m, tracked m → pt.InOrder m
  | .victims pt _ _ => ∀ m, tracked m → pt.InOrder m

namespace Heap

theorem LRUReplacer.followsQueue (capacity : ℕ) : FollowsQueue LRUReplacer true (fun r order => r.nodes.Holds order)
    fun order => LruCall capacity (· ∈ order) := by
  intro r order call holds allowed
  cases call with
  | insert m =>
    obtain ⟨nodes, ran, after⟩ := holds.insert allowed.2
    rw [queueCall, if_neg allowed.2]
    exact ⟨⟨nodes⟩, .insert (by simp [Policy.insert, insert, ran]), after⟩
  | promote m =>
    have tracked : m ∈ order := allowed
    have known := (holds.map m).mpr tracked
    refine ⟨_, .promote (congrArg Except.ok (if_pos known)), holds.linked.promote allowed, fun k => ?_⟩
    simp only [queueCall, if_true, List.mem_cons, holds.linked.nodup.mem_erase_iff, holds.map]
    by_cases same : k = m
    · simp [same, tracked]
    · simp [same]
  | erase m =>
    obtain ⟨nodes, ran, after⟩ := holds.erase allowed
    exact ⟨⟨nodes⟩, .erase (by simp [FullPolicy.erase, erase, ran]), after⟩
  | victim pt =>
    obtain ⟨nodes, ran, after⟩ := victimFrom_returns true (NodeMap.lawful_holds capacity holds) allowed
    exact ⟨⟨nodes⟩, .victim (ran.bind .const), after⟩
  | victims => exact allowed.elim

theorem LRUReplacer_v2.followsQueue (capacity : ℕ) : FollowsQueue LRUReplacer_v2 true
    (fun r order => r.list.Holds capacity order) fun order => LruCall capacity (· ∈ order) := by
  intro r order call holds allowed
  cases call with
  | insert m =>
    obtain ⟨list, ran, after⟩ := (holds.setValue m 0).moveToFront allowed.1
    rw [List.erase_of_not_mem allowed.2] at after
    rw [queueCall, if_neg allowed.2]
    refine ⟨⟨list⟩, .insert ?_, after⟩
    simp only [Policy.insert, insert, if_neg (Nat.not_le.mpr (holds.size.symm ▸ allowed.1)), ran]
    rfl
  | promote m =>
    obtain ⟨list, ran, after⟩ := holds.moveToFront (holds.inside allowed)
    refine ⟨⟨list⟩, .promote ?_, after⟩
    simp only [Policy.promote, promote, ran]
    rfl
  | erase m => exact ⟨⟨(r.list.removeFromIndex m).2⟩, .erase rfl, holds.removeFromIndex allowed⟩
  | victim pt =>
    obtain ⟨list, ran, after⟩ := victimFrom_returns true (Indexed.ListArray.lawful_holds holds) allowed
    exact ⟨⟨list⟩, .victim (ran.bind .const), after⟩
  | victims => exact allowed.elim

theorem FIFOReplacer.followsQueue (capacity : ℕ) : FollowsQueue FIFOReplacer false
    (fun r order => r.nodes.Holds order) fun order => FifoCall capacity (· ∈ order) := by
  intro r order call holds allowed
  cases call with
  | insert m =>
    by_cases tracked : m ∈ order
    · rw [queueCall, if_pos tracked]
      exact ⟨r, .insert (by simp [Policy.insert, insert, holds.insert_tracked tracked]), holds⟩
    · obtain ⟨nodes, ran, after⟩ := holds.insert tracked
      rw [queueCall, if_neg tracked]
      exact ⟨⟨nodes⟩, .insert (by simp [Policy.insert, insert, ran]), after⟩
  | promote m => exact ⟨r, .promote rfl, holds⟩
  | erase m =>
    obtain ⟨nodes, ran, after⟩ := holds.erase allowed
    exact ⟨⟨nodes⟩, .erase (by simp [FullPolicy.erase, erase, ran]), after⟩
  | victim pt =>
    obtain ⟨nodes, ran, after⟩ := victimFrom_returns false (NodeMap.lawful_holds capacity holds) allowed
    exact ⟨⟨nodes⟩, .victim (ran.bind .const), after⟩
  | victims pt mpageIds pageNum =>
    obtain ⟨nodes, ran, after⟩ :=
      victimsFrom_returns pageNum mpageIds (NodeMap.lawful_holds capacity holds) allowed rfl
    exact ⟨⟨nodes⟩, .victims (ran.bind .const), after⟩

theorem FIFOReplacer_v2.followsQueue (capacity : ℕ) : FollowsQueue FIFOReplacer_v2 false
    (fun r order => r.list.Holds capacity order) fun order => FifoCall capacity (· ∈ order) := by
  intro r order call holds allowed
  cases call with
  | insert m =>
    have inside : m < capacity := allowed
    have known : r.list.inList m = true ↔ m ∈ order := holds.inList (Nat.lt_add_right 2 inside)
    have within : ¬ r.list.capacity + 2 ≤ m := by
      rw [holds.size]
      omega
    by_cases tracked : m ∈ order
    · rw [queueCall, if_pos tracked]
      refine ⟨r, .insert ?_, holds⟩
      simp only [Policy.insert, insert, if_neg within, if_pos (known.mpr tracked)]
      rfl
    · obtain ⟨list, ran, after⟩ := holds.moveToFront allowed
      rw [List.erase_of_not_mem tracked] at after
      rw [queueCall, if_neg tracked]
      refine ⟨⟨list⟩, .insert ?_, after⟩
      simp only [Policy.insert, insert, if_neg within, if_neg (tracked ∘ known.mp), ran]
      rfl
  | promote m => exact ⟨r, .promote rfl, holds⟩
  | erase m => exact ⟨⟨(r.list.removeFromIndex m).2⟩, .erase rfl, holds.removeFromIndex allowed⟩
  | victim pt =>
    obtain ⟨list, ran, after⟩ := victimFrom_returns false (Indexed.ListArray.lawful_holds holds) allowed
    exact ⟨⟨list⟩, .victim (ran.bind .const), after⟩
  | victims pt mpageIds pageNum =>
    obtain ⟨list, ran, after⟩ := victimsFrom_returns pageNum mpageIds (Indexed.ListArray.lawful_holds holds) allowed rfl
    exact ⟨⟨list⟩, .victims (ran.bind .const), after⟩

end Heap

end Gbp
