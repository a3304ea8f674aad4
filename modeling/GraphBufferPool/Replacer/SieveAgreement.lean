import GraphBufferPool.Replacer.SieveVersions

/-! # The SIEVE replacers over sequences agree

The three SIEVE replacers, given a call in a consistent pool with something to evict, return the same frame and leave the
same page table. The sweep of the third one needs two tries a frame, so the different budgets do not matter.
-/

namespace Gbp

/-- A call of a pool on its replacer. -/
inductive PoolCall
  | insert (m : ℕ)
  | promote (m : ℕ)
  | victim (pt : PageTable)

/-- What a call returns: the result of `Insert` and `Promote`, or the frame of `Victim` and the page table
it leaves. -/
inductive Answer
  | done (result : Bool)
  | victim (taken : Option ℕ) (pt : PageTable)

/-- A call of a pool. The SIEVE replacers need no fuel. -/
def answer {R : Type} [Policy R] (r : R) : PoolCall → Except Stop (Answer × R)
  | .insert m => do
    let (inserted, r) ← Policy.insert r m
    return (.done inserted, r)
  | .promote m => do
    let (promoted, r) ← Policy.promote r m
    return (.done promoted, r)
  | .victim pt => do
    let (taken, r, table) ← Policy.victim 0 r pt
    return (.victim taken table, r)

/-- The answers to a sequence of calls. -/
def answers {R : Type} [Policy R] : R → List PoolCall → Except Stop (List Answer × R)
  | r, [] => .ok ([], r)
  | r, call :: rest => do
    let (first, r) ← answer r call
    let (others, r) ← answers r rest
    return (first :: others, r)

namespace SieveReplacer_v3

/-- A call as pools make it: `Insert` of an untracked frame, `Promote` of a tracked one, and `Victim` in a
consistent pool with an evictable tracked frame. -/
def Admissible (r : SieveReplacer_v3) : PoolCall → Prop
  | .insert m => m < r.list.capacity ∧ m ∉ r.list.nodes
  | .promote m => m ∈ r.list.nodes
  | .victim pt => pt.Consistent r.list.nodes ∧ ∃ m ∈ r.list.nodes, pt.Evictable m

variable {pt : PageTable}

/-- More tries never change where the sweep breaks out. -/
theorem victimLoop_more {count : ℕ} {list : ListArray} {start : ListIndex}
    {result : ℕ × ListArray × PageTable} (ran : victimLoop pt count list start = .ok result)
    (more : ℕ) : victimLoop pt (count + more) list start = .ok result := by
  induction count generalizing pt list start with
  | zero => cases ran
  | succ count ih =>
    rw [victimLoop_succ] at ran
    rw [Nat.add_right_comm, victimLoop_succ]
    obtain ⟨⟨k, middle⟩, skipped, ran⟩ := bind_eq_ok.mp ran
    obtain ⟨⟨taken, table⟩, tried, ran⟩ := bind_eq_ok.mp ran
    rw [skipped, ok_bind]
    dsimp only at tried ran ⊢
    rw [tried, ok_bind]
    cases taken with
    | true => exact ran
    | false => exact ih ran

/-- In a consistent pool two tries a linked frame are enough. -/
theorem exists_victimLoop_twice {list : ListArray} {i : ℕ} (sound : Sound list)
    (consistent : pt.Consistent list.nodes) (linked : i ∈ list.nodes)
    (found : ∃ m ∈ list.nodes, pt.Evictable m) :
    ∃ result, victimLoop pt (list.nodes.length * 2) list (.node i) = .ok result := by
  obtain ⟨target, member, evictable⟩ := found
  apply exists_victimLoop sound.distinct (fun k linked => consistent.answers linked) _ linked member
    evictable
  · have near := ListArray.distance_lt target linked
    have once := Nat.mul_le_mul_left list.nodes.length (sound.marked target member)
    unfold closeness
    omega
  · intro k linked gone
    rcases consistent.mapped k linked with here | busy
    · rw [gone] at here
      cases here
    · rw [gone] at busy
      cases busy

/-- In a consistent pool a pinned frame refuses the lock, so passing it at once changes nothing. -/
theorem attempt_eq_lockVictim {tracked : List ℕ} {i : ℕ} (consistent : pt.Consistent tracked)
    (member : i ∈ tracked) : attempt pt i = pt.lockVictim i := by
  by_cases evictable : pt.Evictable i
  · rw [attempt_takes evictable, evictable.lockVictim]
  · rw [attempt_passes consistent member evictable, consistent.lockVictim member evictable]

end SieveReplacer_v3

open SieveReplacer_v3

variable {pt : PageTable}

namespace SieveReplacer_v2

/-- On boolean marks the two inner loops are the same. -/
theorem skipVisited_eq {fuel : ℕ} {list : ListArray} {i : ℕ} (sound : Sound list)
    (linked : i ∈ list.nodes) :
    skipVisited fuel list (.node i) = skipMarked fuel list (.node i) := by
  induction fuel generalizing list i with
  | zero => rw [skipVisited, skipMarked]
  | succ fuel ih =>
    rw [skipVisited, skipMarked]
    split_ifs with clear
    · rfl
    · have one : list.val i - 1 = 0 := by
        have := sound.marked i linked
        omega
      obtain ⟨next, later, moved⟩ := ListArray.exists_sweepFrom linked
      have lowered := lowered_setValue list i
      rw [one] at lowered
      dsimp only
      rw [one, ListArray.sweepFrom_setValue, moved]
      exact ih (lowered.sound sound) later

/-- In a consistent pool the two sweeps are the same. -/
theorem victimLoop_eq {count : ℕ} {list : ListArray} {i : ℕ} (sound : Sound list)
    (consistent : pt.Consistent list.nodes) (linked : i ∈ list.nodes) :
    victimLoop pt count list (.node i) = SieveReplacer_v3.victimLoop pt count list (.node i) := by
  induction count generalizing list i with
  | zero => rfl
  | succ count ih =>
    obtain ⟨k, middle, skipped, lowered, member, _⟩ :=
      exists_skipMarked sound.distinct linked (Nat.le_succ list.marks)
    rw [victimLoop, victimLoop_succ, skipVisited_eq sound linked, skipped, ok_bind, ok_bind]
    dsimp only
    rw [attempt_eq_lockVictim consistent member]
    by_cases evictable : pt.Evictable k
    · rw [evictable.lockVictim]
      rfl
    · obtain ⟨next, later, moved⟩ := ListArray.exists_sweepFrom (lowered.nodes ▸ member)
      rw [consistent.lockVictim member evictable, ok_bind, ok_bind, if_neg (by simp), if_neg (by simp),
        moved]
      exact ih (lowered.sound sound) (lowered.nodes.symm ▸ consistent) later

end SieveReplacer_v2

namespace SieveReplacer

/-- A pointer of the heap nodes as an index of the array: null is the head sentinel. -/
def toIndex : Option ℕ → ListIndex
  | none => .head
  | some i => .node i

/-- The heap nodes as an index-linked list. -/
def toList (capacity : ℕ) (r : SieveReplacer) : ListArray := ⟨capacity, r.nodes, r.freq⟩

theorem toIndex_eq_node {p : Option ℕ} {i : ℕ} : toIndex p = .node i ↔ p = some i := by
  cases p <;> simp [toIndex]

theorem toIndex_or (p q : Option ℕ) :
    toIndex (p.or q) = if toIndex p = .head then toIndex q else toIndex p := by
  cases p <;> simp [toIndex]

theorem toIndex_prevIn (before : Option ℕ) {nodes : List ℕ} {i : ℕ} (linked : i ∈ nodes) :
    ListArray.prevIn (toIndex before) nodes i = toIndex (prevNode before nodes i) := by
  induction nodes generalizing before with
  | nil => cases linked
  | cons x rest ih =>
    simp only [prevNode, ListArray.prevIn]
    split_ifs with here
    · rfl
    · exact ih (some x) ((List.mem_cons.mp linked).resolve_left (Ne.symm here))

variable {r : SieveReplacer} {i capacity : ℕ}

theorem toIndex_prev (linked : i ∈ r.nodes) :
    (r.toList capacity).getPrevNodeIndex i = toIndex (r.prev i) :=
  toIndex_prevIn none linked

theorem toIndex_getLast? (r : SieveReplacer) (capacity : ℕ) :
    (r.toList capacity).getTail = toIndex r.nodes.getLast? := by
  unfold ListArray.getTail toList
  cases r.nodes.getLast? <;> rfl

theorem toIndex_sweepFrom (linked : i ∈ r.nodes) :
    (r.toList capacity).sweepFrom i = toIndex (r.sweepFrom i) := by
  unfold ListArray.sweepFrom sweepFrom
  rw [toIndex_prev linked, toIndex_getLast?]
  cases r.prev i <;> simp [toIndex]

theorem exists_sweepFrom (capacity : ℕ) (linked : i ∈ r.nodes) :
    ∃ next ∈ r.nodes, r.sweepFrom i = some next := by
  obtain ⟨next, later, moved⟩ := ListArray.exists_sweepFrom (show i ∈ (r.toList capacity).nodes from linked)
  rw [toIndex_sweepFrom linked] at moved
  exact ⟨next, later, toIndex_eq_node.mp moved⟩

/-- The inner loop on heap nodes is the inner loop on the array. -/
theorem skipVisited_eq {fuel : ℕ} {j : ℕ} {list : ListArray} (linked : i ∈ r.nodes)
    (ran : skipMarked fuel (r.toList capacity) (.node i) = .ok (j, list)) :
    skipVisited fuel r (some i) = .ok (j, { r with freq := list.val }) := by
  induction fuel generalizing r i with
  | zero =>
    rw [skipMarked] at ran
    rw [skipVisited]
    split_ifs at ran with clear
    cases ran
    exact if_pos clear
  | succ fuel ih =>
    rw [skipMarked] at ran
    rw [skipVisited]
    split_ifs at ran with clear
    · cases ran
      exact if_pos clear
    · rw [if_neg (show ¬ r.freq i = 0 from clear)]
      obtain ⟨next, later, moved⟩ := exists_sweepFrom capacity linked
      dsimp only at ran ⊢
      rw [ListArray.sweepFrom_setValue, toIndex_sweepFrom linked, moved] at ran
      rw [show sweepFrom { r with freq := Function.update r.freq i (r.freq i - 1) } i = some next from
        moved]
      exact ih later ran

/-- In a consistent pool the sweep over heap nodes is the sweep over the array. -/
theorem victimLoop_eq {count j : ℕ} {list : ListArray} {table : PageTable}
    (sound : Sound (r.toList capacity)) (consistent : pt.Consistent r.nodes) (linked : i ∈ r.nodes)
    (ran : SieveReplacer_v3.victimLoop pt count (r.toList capacity) (.node i) = .ok (j, list, table)) :
    victimLoop pt count r (some i) = .ok (some j, { r with freq := list.val }, table) := by
  induction count generalizing r i with
  | zero => cases ran
  | succ count ih =>
    obtain ⟨k, middle, skipped, lowered, member, _⟩ :=
      exists_skipMarked sound.distinct linked (Nat.le_succ (r.toList capacity).marks)
    rw [victimLoop_succ, skipped, ok_bind] at ran
    have visited := skipVisited_eq linked skipped
    rw [victimLoop, show (r.nodes.map r.freq).sum + 1 = (r.toList capacity).marks.succ from rfl, visited,
      ok_bind]
    dsimp only at ran ⊢
    rw [attempt_eq_lockVictim consistent member] at ran
    have same : middle = toList capacity { r with freq := middle.val } := by
      have nodes := lowered.nodes
      have room := lowered.capacity
      cases middle
      cases nodes
      cases room
      rfl
    by_cases evictable : pt.Evictable k
    · rw [evictable.lockVictim] at ran ⊢
      cases ran
      rfl
    · obtain ⟨next, later, moved⟩ := exists_sweepFrom capacity member
      rw [consistent.lockVictim member evictable, ok_bind, if_neg (by simp)] at ran ⊢
      have onward : sweepFrom { r with freq := middle.val } k = some next := moved
      rw [same, toIndex_sweepFrom (show k ∈ nodes { r with freq := middle.val } from member),
        onward] at ran
      rw [onward]
      exact ih (same ▸ lowered.sound sound) consistent later ran

end SieveReplacer

/-- The three replacers track the same list with the same marks and the same hand. -/
structure SieveAgree (r₁ : SieveReplacer) (r₂ : SieveReplacer_v2) (r₃ : SieveReplacer_v3) : Prop where
  list : r₁.toList r₃.list.capacity = r₃.list
  map : r₁.map = r₁.nodes.toFinset
  hand : SieveReplacer.toIndex r₁.pointer = r₃.pointer
  list₂ : r₂.list = r₃.list
  hand₂ : r₂.pointer = r₃.pointer
  ready : Ready r₃

theorem sieveAgree_new (capacity : ℕ) : SieveAgree .new (.new capacity) (.new capacity) where
  list := rfl
  map := rfl
  hand := rfl
  list₂ := rfl
  hand₂ := rfl
  ready := ⟨⟨List.nodup_nil, nofun, nofun⟩, Or.inl rfl⟩

variable {r₁ : SieveReplacer} {r₂ : SieveReplacer_v2} {r₃ : SieveReplacer_v3}

private theorem SieveAgree.insert (agree : SieveAgree r₁ r₂ r₃) {m : ℕ} (inside : m < r₃.list.capacity)
    (untracked : m ∉ r₃.list.nodes) : ∃ r₂' r₃', r₂.insert m = .ok (true, r₂') ∧
      r₃.insert m = .ok (true, r₃') ∧ (r₁.insert m).1 = true ∧
        SieveAgree (r₁.insert m).2 r₂' r₃' := by
  have nodes : r₁.nodes = r₃.list.nodes := congrArg ListArray.nodes agree.list
  have freq : r₁.freq = r₃.list.val := congrArg ListArray.val agree.list
  have fresh : m ∉ r₁.map := by rwa [agree.map, List.mem_toFinset, nodes]
  have linked : r₃.list.inList m = false := decide_eq_false untracked
  refine ⟨⟨{ r₃.list.setValue m 0 with nodes := m :: r₃.list.nodes.erase m }, r₃.pointer⟩, _, ?_,
    insert_eq inside, by rw [SieveReplacer.insert, if_neg fresh], ?_⟩
  · have within : ¬ r₃.list.capacity + 2 ≤ m := by omega
    simp only [SieveReplacer_v2.insert, agree.list₂, agree.hand₂, linked, Nat.not_le.mpr inside, within, if_false,
      ListArray.moveToFront, ListArray.setValue, Bool.false_eq_true]
    rfl
  · rw [SieveReplacer.insert, if_neg fresh]
    refine ⟨?_, ?_, agree.hand, rfl, rfl, agree.ready.insert inside⟩
    · simp only [SieveReplacer.toList, nodes, freq, ListArray.setValue, List.erase_of_not_mem untracked]
    · rw [List.toFinset_cons, agree.map]

private theorem SieveAgree.promote (agree : SieveAgree r₁ r₂ r₃) {m : ℕ}
    (linked : m ∈ r₃.list.nodes) : ∃ r₂' r₃', r₂.promote m = .ok (true, r₂') ∧
      r₃.promote m = .ok (true, r₃') ∧ (r₁.promote m).1 = true ∧
        SieveAgree (r₁.promote m).2 r₂' r₃' := by
  have inside := agree.ready.1.inside m linked
  have nodes : r₁.nodes = r₃.list.nodes := congrArg ListArray.nodes agree.list
  have freq : r₁.freq = r₃.list.val := congrArg ListArray.val agree.list
  have known : m ∈ r₁.map := by rwa [agree.map, List.mem_toFinset, nodes]
  have member : r₃.list.inList m = true := decide_eq_true linked
  have low : Call.mark (.promote m) ≤ 1 := le_rfl
  refine ⟨⟨r₃.list.setValue m 1, r₃.pointer⟩, _, ?_, promote_eq inside,
    by rw [SieveReplacer.promote, if_pos known], ?_⟩
  · have within : ¬ r₃.list.capacity + 2 ≤ m := by omega
    simp only [SieveReplacer_v2.promote, agree.list₂, agree.hand₂, member, Nat.not_le.mpr inside, within,
      if_false, if_true]
    rfl
  · rw [SieveReplacer.promote, if_pos known]
    have tidy : Tidy 1 r₃.list := ⟨agree.ready.1.distinct, agree.ready.1.inside, agree.ready.1.marked⟩
    refine ⟨?_, agree.map, agree.hand, rfl, rfl, (tidy.setValue m low).sound, agree.ready.2⟩
    simp only [SieveReplacer.toList, nodes, freq, ListArray.setValue]

private theorem SieveAgree.victim (agree : SieveAgree r₁ r₂ r₃)
    (consistent : pt.Consistent r₃.list.nodes) (found : ∃ m ∈ r₃.list.nodes, pt.Evictable m) :
    ∃ m table r₁' r₂' r₃', r₁.victim pt = .ok (some m, r₁', table) ∧
      r₂.victim pt = .ok (some m, r₂', table) ∧ r₃.victim pt = .ok (some m, r₃', table) ∧
        SieveAgree r₁' r₂' r₃' := by
  have nodes : r₁.nodes = r₃.list.nodes := congrArg ListArray.nodes agree.list
  have sound := agree.ready.1
  rcases HandValid.start agree.ready.2 with ⟨_, empty⟩ | ⟨i, linked, start⟩
  · obtain ⟨m, member, _⟩ := found
    rw [empty] at member
    cases member
  obtain ⟨⟨j, list, table⟩, swept⟩ := exists_victimLoop_twice sound consistent linked found
  obtain ⟨lowered, member⟩ := victimLoop_linked sound.distinct linked swept
  have fits : r₃.list.nodes.length ≤ r₃.list.capacity := by
    have within : r₃.list.nodes ⊆ List.range r₃.list.capacity :=
      fun i linked => List.mem_range.mpr (sound.inside i linked)
    simpa using (sound.distinct.subperm within).length_le
  have third : SieveReplacer_v3.victimLoop pt (r₃.list.capacity * 2) r₃.list (.node i) =
      .ok (j, list, table) := by
    have ran := victimLoop_more swept ((r₃.list.capacity - r₃.list.nodes.length) * 2)
    rwa [← Nat.add_mul, Nat.add_sub_cancel' fits] at ran
  have second : SieveReplacer_v2.victimLoop pt (r₃.list.capacity * 2) r₃.list (.node i) =
      .ok (j, list, table) := by
    rw [SieveReplacer_v2.victimLoop_eq sound consistent linked, third]
  have cursor : r₁.pointer.or r₁.nodes.getLast? = some i := by
    rw [← SieveReplacer.toIndex_eq_node, SieveReplacer.toIndex_or, agree.hand,
      ← SieveReplacer.toIndex_getLast? r₁ r₃.list.capacity, agree.list, start]
  have size : r₁.map.card * 3 = r₃.list.nodes.length * 2 + r₃.list.nodes.length := by
    rw [agree.map, nodes, List.toFinset_card_of_nodup sound.distinct]
    omega
  have first : SieveReplacer.victimLoop pt (r₁.map.card * 3) r₁ (some i) =
      .ok (some j, { r₁ with freq := list.val }, table) := by
    have wide := victimLoop_more swept r₃.list.nodes.length
    rw [← size, ← agree.list] at wide
    exact SieveReplacer.victimLoop_eq (agree.list.symm ▸ sound) (nodes.symm ▸ consistent)
      (nodes.symm ▸ linked) wide
  have ran : r₃.victim pt =
      .ok (some j, ⟨list.removeFromIndex j, list.getPrevNodeIndex j⟩, table) := by
    simp only [SieveReplacer_v3.victim, start]
    rw [if_neg (by simp), third]
    rfl
  obtain ⟨_, _, _, _, _, ready⟩ := agree.ready.victim_sound (fun k linked => consistent.answers linked) ran
  refine ⟨j, table, { r₁ with
    freq := list.val
    pointer := r₁.prev j
    nodes := r₁.nodes.erase j
    map := r₁.map.erase j }, ⟨list.removeFromIndex j, list.getPrevNodeIndex j⟩, _, ?_, ?_, ran, ?_⟩
  · rw [SieveReplacer.victim, cursor]
    dsimp only
    rw [first]
    rfl
  · simp only [SieveReplacer_v2.victim, agree.list₂, agree.hand₂, start]
    rw [if_neg (by simp), second]
    rfl
  · have removed : list.removeFromIndex j = { list with nodes := list.nodes.erase j } := by
      have inside := sound.inside j member
      rw [ListArray.removeFromIndex, if_neg (by rw [lowered.capacity]; omega)]
    refine ⟨?_, ?_, ?_, rfl, rfl, ready⟩
    · rw [removed, SieveReplacer.toList, lowered.nodes, nodes]
    · ext k
      rw [agree.map, Finset.mem_erase, List.mem_toFinset, List.mem_toFinset, nodes,
        sound.distinct.mem_erase_iff]
    · rw [← SieveReplacer.toIndex_prev (nodes.symm ▸ member), agree.list]
      unfold ListArray.getPrevNodeIndex
      rw [lowered.nodes]

/-- An admissible call gets one answer from the three, and they keep agreeing. -/
theorem SieveAgree.answer (agree : SieveAgree r₁ r₂ r₃) {call : PoolCall}
    (admissible : r₃.Admissible call) : ∃ a r₁' r₂' r₃', answer r₁ call = .ok (a, r₁') ∧
      answer r₂ call = .ok (a, r₂') ∧ answer r₃ call = .ok (a, r₃') ∧ SieveAgree r₁' r₂' r₃' := by
  cases call with
  | insert m =>
    obtain ⟨r₂', r₃', second, third, first, agree'⟩ := agree.insert admissible.1 admissible.2
    refine ⟨.done true, _, r₂', r₃', ?_, ?_, ?_, agree'⟩
    · rw [← first]
      rfl
    · simp only [Gbp.answer, Policy.insert, second, ok_bind]
      rfl
    · simp only [Gbp.answer, Policy.insert, third, ok_bind]
      rfl
  | promote m =>
    obtain ⟨r₂', r₃', second, third, first, agree'⟩ := agree.promote admissible
    refine ⟨.done true, _, r₂', r₃', ?_, ?_, ?_, agree'⟩
    · rw [← first]
      rfl
    · simp only [Gbp.answer, Policy.promote, second, ok_bind]
      rfl
    · simp only [Gbp.answer, Policy.promote, third, ok_bind]
      rfl
  | victim pt =>
    obtain ⟨m, table, r₁', r₂', r₃', first, second, third, agree'⟩ :=
      agree.victim admissible.1 admissible.2
    refine ⟨.victim (some m) table, r₁', r₂', r₃', ?_, ?_, ?_, agree'⟩
    · simp only [Gbp.answer, Policy.victim, first, ok_bind]
      rfl
    · simp only [Gbp.answer, Policy.victim, second, ok_bind]
      rfl
    · simp only [Gbp.answer, Policy.victim, third, ok_bind]
      rfl

end Gbp
