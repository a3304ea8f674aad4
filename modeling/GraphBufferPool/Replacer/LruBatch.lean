import GraphBufferPool.Lib.Reach
import GraphBufferPool.Replacer.QueueCalls

/-! # The batch `Victim` of `LRUReplacer`

It takes a node out of the list by joining `tail_` to the node before it, as if the node were the last one. The
nodes behind it, which the search passed over, are not reached from either sentinel any more, while
`map_` still knows their frames. Nothing is lost exactly where the search never passes over a frame before it
takes one.
-/

namespace Gbp

open Fuel Heap Machine

/-- No frame is passed over before the last one that is taken: the frames from the tail on are enough, or there is
none to take behind them. -/
def NoneSkipped (p : ℕ → Prop) [DecidablePred p] (pageNum : ℕ) (line : List ℕ) : Prop :=
  pageNum ≤ (line.takeWhile p).length ∨ ∀ m ∈ line.dropWhile p, ¬ p m

instance (p : ℕ → Prop) [DecidablePred p] (pageNum : ℕ) (line : List ℕ) : Decidable (NoneSkipped p pageNum line) :=
  inferInstanceAs (Decidable (_ ∨ _))

section line

variable {p q : ℕ → Prop} [DecidablePred p] [DecidablePred q] {pageNum m : ℕ} {line skipped rest : List ℕ}

theorem noneSkipped_congr (same : ∀ m ∈ line, p m ↔ q m) : NoneSkipped p pageNum line ↔ NoneSkipped q pageNum line := by
  have decided : ∀ m ∈ line, decide (p m) = decide (q m) := fun m member => by rw [decide_eq_decide, same m member]
  have taken : line.takeWhile p = line.takeWhile q := by
    induction line with
    | nil => rfl
    | cons k line ih =>
      simp only [List.takeWhile_cons, decided k (List.mem_cons_self ..)]
      rw [ih (fun m later => same m (List.mem_cons_of_mem _ later)) fun m later => decided m (List.mem_cons_of_mem _ later)]
  have left : line.dropWhile p = line.dropWhile q := by
    have whole := (List.takeWhile_append_dropWhile (p := p) (l := line)).trans
      (List.takeWhile_append_dropWhile (p := q) (l := line)).symm
    rw [taken] at whole
    exact List.append_cancel_left whole
  rw [NoneSkipped, NoneSkipped, taken, left]
  refine or_congr_right (forall₂_congr fun m later => ?_)
  rw [same m ((List.dropWhile_suffix _).subset later)]

theorem noneSkipped_cons (taken : p m) : NoneSkipped p (pageNum + 1) (m :: rest) ↔ NoneSkipped p pageNum rest := by
  simp [NoneSkipped, taken]

theorem not_noneSkipped {k : ℕ} (kept : ¬ p k) (later : m ∈ line) (taken : p m) :
    ¬ NoneSkipped p (pageNum + 1) (k :: line) := by
  simp only [NoneSkipped, List.takeWhile_cons, List.dropWhile_cons, kept, decide_false, Bool.false_eq_true, if_false]
  rintro (enough | none)
  · simp at enough
  · exact none m (List.mem_cons_of_mem _ later) taken

end line

namespace Heap.LRUReplacer

/-- The frames that were taken are out of the list and the map, and all others in them, in their order. -/
def BatchKeeps (order mpageIds mpageIds' : List ℕ) (r' : LRUReplacer) : Prop :=
  ∃ taken, mpageIds' = mpageIds ++ taken ∧ taken ⊆ order ∧ r'.nodes.Holds (order.filter (· ∉ taken))

/-- The batch `Victim` takes what it should. What it leaves linked is all that it did not take if and only if no frame
is passed over. -/
theorem victims_linked (pageNum : ℕ) {r : LRUReplacer} {pt : PageTable} {line : List ℕ} (mpageIds : List ℕ)
    (linked : Linked r.nodes.links line.reverse) (inOrder : ∀ m ∈ line, pt.InOrder m) :
    ∃ result taken left links pt', Returns (fun fuel => victims fuel pageNum r pt mpageIds)
        (result, mpageIds ++ taken, ⟨⟨links, r.nodes.map \ taken.toFinset⟩⟩, pt') ∧
      taken = (line.filter pt.Reusable).take pageNum ∧ pt' = taken.foldl .withdraw pt ∧
      left ⊆ line ∧ Linked links left.reverse ∧
      (line.filter (· ∉ taken) = left ↔ NoneSkipped pt.Reusable pageNum line) := by
  have distinct := List.nodup_reverse.mp linked.nodup
  induction pageNum generalizing r pt line mpageIds with
  | zero =>
    refine ⟨true, [], line, r.nodes.links, pt, ⟨0, fun _ _ => by simp [victims]⟩, rfl, rfl, fun _ here => here, linked, ?_⟩
    simp [NoneSkipped]
  | succ pageNum ih =>
    have search (fuel : ℕ) (enough : line.length ≤ fuel) : NodeQueue.walk PageTable.lockClean fuel r.nodes pt =
        .ok (line.find? pt.Reusable, pt.lockFound (line.find? pt.Reusable)) := by
      have walk : NodeQueue.walk PageTable.lockClean fuel r.nodes pt =
          pt.searchWith PageTable.lockClean line.reverse.reverse :=
        searchNodes_eq linked.seg rfl (fun _ _ => rfl) (fun _ _ => rfl) pt ((List.length_reverse).trans_le enough)
      rw [List.reverse_reverse] at walk
      exact walk.trans (PageTable.searchClean_eq inOrder)
    cases found : line.find? pt.Reusable with
    | none =>
      have kept : ∀ m ∈ line, ¬ pt.Reusable m := fun m member => by simpa using List.find?_eq_none.mp found m member
      have nothing : line.filter pt.Reusable = [] := List.filter_eq_nil_iff.mpr (by simpa using kept)
      refine ⟨false, [], line, r.nodes.links, pt, ⟨line.length, fun fuel enough => ?_⟩, ?_, rfl, fun _ here => here,
        linked, ?_⟩
      · simp [victims, search fuel enough, found, ok_bind, PageTable.lockFound, pure, Except.pure]
      · rw [nothing, List.take_nil]
      · refine iff_of_true (by simp) (Or.inr fun m later => ?_)
        exact kept m ((List.dropWhile_suffix _).subset later)
    | some m =>
      obtain ⟨holds, skipped, rest, rfl, passed⟩ := List.find?_eq_some_iff_append.mp found
      have reusable : pt.Reusable m := by simpa using holds
      have kept : ∀ k ∈ skipped, ¬ pt.Reusable k := fun k early => by simpa using passed k early
      obtain ⟨_, behind, apart⟩ := List.nodup_append.mp distinct
      obtain ⟨fresh, distinct'⟩ := List.nodup_cons.mp behind
      have others {k : ℕ} (later : k ∈ rest) : pt.InOrder k ∧ k ≠ m :=
        ⟨inOrder k (by simp [later]), by rintro rfl; exact fresh later⟩
      have same (k : ℕ) (later : k ∈ rest) : (pt.withdraw m).Reusable k ↔ pt.Reusable k :=
        (others later).1.reusable_withdraw reusable.1 (others later).2
      have split : (skipped ++ m :: rest).reverse = rest.reverse ++ m :: skipped.reverse := by simp
      rw [split] at linked
      obtain ⟨result, taken, left, links, pt', ⟨enough, ran⟩, picked, table, within, linked', exact⟩ :=
        @ih ⟨⟨_, r.nodes.map.erase m⟩⟩ (pt.withdraw m) rest (mpageIds ++ [m]) linked.cut
          (fun k later => (others later).1.withdraw reusable.1 (others later).2) distinct'
      have these : taken = (rest.filter pt.Reusable).take pageNum := by
        rw [picked]
        exact congrArg _ (List.filter_congr fun k later => by rw [decide_eq_decide, same k later])
      have chosen : (skipped ++ m :: rest).filter pt.Reusable = m :: rest.filter pt.Reusable := by
        have none : skipped.filter pt.Reusable = [] := List.filter_eq_nil_iff.mpr (by simpa using kept)
        rw [List.filter_append, none, List.nil_append, List.filter_cons, if_pos holds]
      refine ⟨result, m :: taken, left, links, pt', ⟨max (skipped ++ m :: rest).length enough, fun fuel more => ?_⟩,
        ?_, table, fun k later => by simp [within later], linked', ?_⟩
      · have later := ran fuel (le_trans (le_max_right ..) more)
        simp only [victims, search fuel (le_trans (le_max_left ..) more), found, ok_bind, PageTable.lockFound]
        rw [reusable.1.delete, ok_bind]
        have map : r.nodes.map.erase m \ taken.toFinset = r.nodes.map \ (m :: taken).toFinset := by
          ext k
          simp only [Finset.mem_sdiff, Finset.mem_erase, List.mem_toFinset, List.mem_cons]
          tauto
        rw [List.append_assoc, map] at later
        exact later
      · rw [chosen, List.take_succ_cons, these]
      · have picks : taken ⊆ rest := fun k member =>
          List.mem_of_mem_filter (List.mem_of_mem_take (these ▸ member))
        cases skipped with
        | nil =>
          have gap : rest.filter (· ∉ m :: taken) = rest.filter (· ∉ taken) :=
            List.filter_congr fun k later => by simp [(others later).2]
          rw [List.nil_append, List.filter_cons_of_neg (by simp), gap, exact, noneSkipped_cons reusable]
          exact noneSkipped_congr same
        | cons k early =>
          refine iff_of_false (fun kept => ?_) (not_noneSkipped (kept k (List.mem_cons_self ..)) (by simp) reusable)
          have first : k ∈ (k :: early ++ m :: rest).filter (· ∉ m :: taken) := by
            have other := apart k (List.mem_cons_self ..)
            simp only [List.mem_filter, decide_eq_true_eq, List.mem_cons, not_or]
            refine ⟨by simp, other m (by simp), fun there => other k (by simp [picks there]) rfl⟩
          rw [kept] at first
          exact apart k (List.mem_cons_self ..) k (by simp [within first]) rfl

variable {r r' : LRUReplacer} {pt : PageTable} {order mpageIds mpageIds' : List ℕ} {pageNum capacity : ℕ}

/-- The batch `Victim` loses no frame if and only if it passes over none. -/
theorem victims_keeps_iff (holds : r.nodes.Holds order) (inOrder : ∀ m ∈ order, pt.InOrder m)
    (mpageIds : List ℕ) (pageNum : ℕ) : ∃ result mpageIds' r' pt',
      Returns (fun fuel => victims fuel pageNum r pt mpageIds) (result, mpageIds', r', pt') ∧
        (BatchKeeps order mpageIds mpageIds' r' ↔ NoneSkipped pt.Reusable pageNum order.reverse) ∧
          (NoneSkipped pt.Reusable pageNum order.reverse →
            r'.nodes.Holds (queueCall true order (.victims pt mpageIds pageNum)).2) := by
  obtain ⟨result, taken, left, links, pt', ran, picked, _, _, linked, exact⟩ :=
    @victims_linked pageNum r pt order.reverse mpageIds (by rw [List.reverse_reverse]; exact holds.linked)
      fun m member => inOrder m (List.mem_reverse.mp member)
  have map (m : ℕ) : m ∈ r.nodes.map \ taken.toFinset ↔ m ∈ order.filter (· ∉ taken) := by
    simp [holds.map]
  have line : (order.filter (· ∉ taken)).reverse = left ↔ NoneSkipped pt.Reusable pageNum order.reverse := by
    rw [← List.filter_reverse]
    exact exact
  have keeps (none : NoneSkipped pt.Reusable pageNum order.reverse) :
      NodeMap.Holds ⟨links, r.nodes.map \ taken.toFinset⟩ (order.filter (· ∉ taken)) := by
    rw [← line.mpr none, List.reverse_reverse] at linked
    exact ⟨linked, map⟩
  refine ⟨result, _, _, pt', ran, ⟨?_, fun none => ?_⟩, fun none => ?_⟩
  · rintro ⟨others, same, _, kept⟩
    cases List.append_cancel_left same
    refine line.mp ?_
    rw [kept.linked.unique linked, List.reverse_reverse]
  · refine ⟨taken, rfl, fun m member => ?_, keeps none⟩
    rw [picked] at member
    exact List.mem_reverse.mp (List.mem_of_mem_filter (List.mem_of_mem_take member))
  · rw [queueCall, ← picked]
    exact keeps none

/-- The calls of an LRU with batches, of which each passes over no frame. -/
def BatchCall (capacity : ℕ) (order : List ℕ) : ReplacerCall → Prop
  | .victims pt _ pageNum => (∀ m ∈ order, pt.InOrder m) ∧ NoneSkipped pt.Reusable pageNum order.reverse
  | call => LruCall capacity (· ∈ order) call

/-- A call of the replacer, with the frames in the order of their last uses. -/
inductive BatchStep (capacity : ℕ) : LRUReplacer × List ℕ → LRUReplacer × List ℕ → Prop
  | call {r r' : LRUReplacer} {order : List ℕ} (c : ReplacerCall) (answer : ReplacerAnswer)
      (allowed : BatchCall capacity order c) (ran : Answered r c answer r') : BatchStep capacity (r, order) (r', (queueCall true order c).2)

theorem BatchStep.holds {state state' : LRUReplacer × List ℕ} (step : BatchStep capacity state state')
    (holds : state.1.nodes.Holds state.2) : state'.1.nodes.Holds state'.2 := by
  obtain @⟨r, r', order, c, answer, allowed, ran⟩ := step
  have single (allowed : LruCall capacity (· ∈ order) c) : r'.nodes.Holds (queueCall true order c).2 := by
    obtain ⟨next, follows, after⟩ := followsQueue capacity _ _ c holds allowed
    cases ran.unique follows
    exact after
  cases c with
  | insert => exact single allowed
  | promote => exact single allowed
  | erase => exact single allowed
  | victim => exact single allowed
  | victims pt mpageIds pageNum =>
    obtain ⟨result, mpageIds', next, pt', returns, _, kept⟩ := victims_keeps_iff holds allowed.1 mpageIds pageNum
    cases ran.unique (Answered.victims returns)
    exact kept allowed.2

/-- In every run whose batches pass over no frame, all tracked frames are linked and in the map; and the next batch
keeps this up if and only if it passes over no frame. -/
theorem batch_keeps_iff {state : LRUReplacer × List ℕ}
    (run : Reach (· = (⟨.new⟩, [])) (BatchStep capacity) state) : state.1.nodes.Holds state.2 ∧
      ∀ pt mpageIds pageNum, (∀ m ∈ state.2, pt.InOrder m) → ∃ result mpageIds' r' pt',
        Returns (fun fuel => victims fuel pageNum state.1 pt mpageIds) (result, mpageIds', r', pt') ∧
          (BatchKeeps state.2 mpageIds mpageIds' r' ↔ NoneSkipped pt.Reusable pageNum state.2.reverse) := by
  have holds : state.1.nodes.Holds state.2 := by
    refine run.invariant (fun s start => ?_) fun s s' before step => step.holds before
    subst start
    exact NodeMap.holds_new
  refine ⟨holds, fun pt mpageIds pageNum inOrder => ?_⟩
  obtain ⟨result, mpageIds', r', pt', ran, exact, _⟩ := victims_keeps_iff holds inOrder mpageIds pageNum
  exact ⟨result, mpageIds', r', pt', ran, exact⟩

/-- Two frames of a pool, frame 0 in use and frame 1 not. -/
def firstPinned : PageTable where
  partitioner := ⟨0⟩
  mappings := [some [.frame 0, .frame 1]]
  ptes m := if m = 0 then PTE.loaded ⟨0, 0⟩ else (PTE.loaded ⟨0, m⟩).setRefCount 0 PTE.refCount_zero_lt

theorem firstPinned_inOrder : ∀ m ∈ [1, 0], firstPinned.InOrder m := by
  intro m member
  simp only [List.mem_cons, List.not_mem_nil, or_false] at member
  rcases member with rfl | rfl
  · exact ⟨rfl, Or.inl rfl⟩
  · exact ⟨rfl, Or.inl rfl⟩

/-- The replacer after both were inserted. -/
def twoNodes : LRUReplacer := ((⟨.new⟩ : LRUReplacer).insert 0).2.insert 1 |>.2

theorem run_twoNodes : Reach (· = (⟨.new⟩, [])) (BatchStep 2) (twoNodes, [1, 0]) := by
  have start : Reach (· = (⟨.new⟩, [])) (BatchStep 2) (⟨.new⟩, []) := .init rfl
  have first : BatchStep 2 (⟨.new⟩, []) (_, [0]) :=
    .call (.insert 0) _ ⟨Nat.two_pos, by simp⟩ (Answered.insert rfl)
  have second : BatchStep 2 (((⟨.new⟩ : LRUReplacer).insert 0).2, [0]) (twoNodes, [1, 0]) :=
    .call (.insert 1) _ ⟨Nat.one_lt_two, by simp⟩ (Answered.insert rfl)
  exact (start.step first).step second

theorem batch_keeps_iff_twoNodes : twoNodes.nodes.Holds [1, 0] ∧
    ∀ pt mpageIds pageNum, (∀ m ∈ [1, 0], pt.InOrder m) → ∃ result mpageIds' r' pt',
      Returns (fun fuel => victims fuel pageNum twoNodes pt mpageIds) (result, mpageIds', r', pt') ∧
        (BatchKeeps [1, 0] mpageIds mpageIds' r' ↔ NoneSkipped pt.Reusable pageNum [0, 1]) :=
  batch_keeps_iff run_twoNodes

/-- The batch takes frame 1, and frame 0 goes out of the list with it. -/
theorem batch_loses_frame : Reach (· = (⟨.new⟩, [])) (BatchStep 2) (twoNodes, [1, 0]) ∧
    (∀ m ∈ [1, 0], firstPinned.InOrder m) ∧ ∃ result r' pt',
      Returns (fun fuel => victims fuel 1 twoNodes firstPinned []) (result, [1], r', pt') ∧
        ¬ BatchKeeps [1, 0] [] [1] r' ∧ 0 ∈ r'.nodes.map ∧ r'.nodes.links.prev .tail = .head ∧
          r'.nodes.links.next .head = .tail := by
  refine ⟨run_twoNodes, firstPinned_inOrder, true, ⟨⟨(twoNodes.nodes.links.setPrev .tail .head).setNext .head .tail,
    twoNodes.nodes.map.erase 1⟩⟩, firstPinned.withdraw 1, ⟨2, fun fuel enough => ?_⟩, ?_, by decide, rfl, rfl⟩
  · obtain ⟨more, rfl⟩ := Nat.exists_eq_add_of_le' enough
    rfl
  · rintro ⟨taken, same, _, kept⟩
    cases same
    cases kept.linked.seg.1.1

end Heap.LRUReplacer

end Gbp
