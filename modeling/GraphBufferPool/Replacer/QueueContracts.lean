import GraphBufferPool.Replacer.QueueCalls

/-! # LRU and FIFO

The contracts of the two kinds of queue replacers, in terms of when each frame was last used or inserted and
nothing else, and that the heap version and the `ListArray` version of each meet theirs with the same
answers.
-/

namespace Gbp

open Fuel Heap

/-- The contract of an LRU replacer: a frame is used when it is inserted and when it is promoted, and a `Victim`
takes the one of the evictable frames that was used before all others. -/
def lruContract (capacity : ℕ) : Contract (Ages ℕ) ReplacerCall ReplacerAnswer where
  Allowed ages := LruCall capacity (· ∈ ages.present)
  Answers ages
    | .victim pt, answer => ∃ taken, ages.FirstOf pt.Evictable taken ∧ answer = .victim taken (pt.lockFound taken)
    | _, answer => answer = .returned true
  after ages
    | .insert m, _ | .promote m, _ => ages.touch m
    | .erase m, _ => ages.forget [m]
    | .victim _, .victim taken _ => ages.forget taken.toList
    | _, _ => ages

/-- The contract of a FIFO replacer: a frame has its place from its insertion, and a `Victim` takes the evictable
frames, and a batch the clean ones among them, in the order of their insertions. -/
def fifoContract (capacity : ℕ) : Contract (Ages ℕ) ReplacerCall ReplacerAnswer where
  Allowed ages := FifoCall capacity (· ∈ ages.present)
  Answers ages
    | .insert m, answer => answer = .returned (decide (m ∉ ages.present))
    | .victim pt, answer => ∃ taken, ages.FirstOf pt.Evictable taken ∧ answer = .victim taken (pt.lockFound taken)
    | .victims pt mpageIds pageNum, answer => ∃ taken, ages.Eldest pt.Reusable pageNum taken ∧
        answer = .victims (decide (pageNum = 0 ∨ mpageIds ++ taken ≠ [])) (mpageIds ++ taken)
          (taken.foldl .withdraw pt)
    | _, answer => answer = .returned true
  after ages
    | .insert m, _ => if m ∈ ages.present then ages else ages.touch m
    | .erase m, _ => ages.forget [m]
    | .victim _, .victim taken _ => ages.forget taken.toList
    | .victims _ mpageIds _, .victims _ all _ => ages.forget (all.drop mpageIds.length)
    | _, _ => ages

variable {ages : Ages ℕ} {order : List ℕ}

/-- The LRU queue answers rightly and stays in the order of the ages. -/
theorem lruContract_queue (capacity : ℕ) (ordered : ages.Ordered order) {call : ReplacerCall}
    (allowed : (lruContract capacity).Allowed ages call) :
    (lruContract capacity).Answers ages call (queueCall true order call).1 ∧
      ((lruContract capacity).after ages call (queueCall true order call).1).Ordered (queueCall true order call).2 := by
  cases call with
  | insert m =>
    have fresh : m ∉ order := (ordered.mem m).not.mpr allowed.2
    have touched := ordered.touch m
    rw [List.erase_of_not_mem fresh] at touched
    rw [queueCall, if_neg fresh]
    exact ⟨rfl, touched⟩
  | promote m => exact ⟨rfl, ordered.touch m⟩
  | erase m => exact ⟨rfl, ordered.forget_one m⟩
  | victim pt => exact ⟨⟨_, ordered.firstOf, rfl⟩, ordered.forget _⟩
  | victims => exact allowed.elim

/-- The FIFO queue answers rightly and stays in the order of the ages. -/
theorem fifoContract_queue (capacity : ℕ) (ordered : ages.Ordered order) {call : ReplacerCall} :
    (fifoContract capacity).Answers ages call (queueCall false order call).1 ∧
      ((fifoContract capacity).after ages call (queueCall false order call).1).Ordered
        (queueCall false order call).2 := by
  cases call with
  | insert m =>
    by_cases tracked : m ∈ order
    · have present := (ordered.mem m).mp tracked
      rw [queueCall, if_pos tracked]
      refine ⟨by simp [fifoContract, present], ?_⟩
      simp only [fifoContract, if_pos present]
      exact ordered
    · have absent := (ordered.mem m).not.mp tracked
      have touched := ordered.touch m
      rw [List.erase_of_not_mem tracked] at touched
      rw [queueCall, if_neg tracked]
      refine ⟨by simp [fifoContract, absent], ?_⟩
      simp only [fifoContract, if_neg absent]
      exact touched
  | promote m => exact ⟨rfl, ordered⟩
  | erase m => exact ⟨rfl, ordered.forget_one m⟩
  | victim pt => exact ⟨⟨_, ordered.firstOf, rfl⟩, ordered.forget _⟩
  | victims pt mpageIds pageNum =>
    refine ⟨⟨_, ordered.eldest pageNum, rfl⟩, ?_⟩
    simp only [fifoContract, queueCall, List.drop_left]
    exact ordered.forget _

/-- Two replacers that follow one queue meet its contract with the same answers. -/
theorem meets_of_followsQueue {R R' : Type} [FullPolicy R] [FullPolicy R'] {promotes : Bool}
    {contract : Contract (Ages ℕ) ReplacerCall ReplacerAnswer} {Allowed : List ℕ → ReplacerCall → Prop}
    {Holds : R → List ℕ → Prop} {Holds' : R' → List ℕ → Prop} {r : R} {r' : R'}
    (first : FollowsQueue R promotes Holds Allowed) (second : FollowsQueue R' promotes Holds' Allowed)
    (allows : ∀ ages order call, ages.Ordered order → contract.Allowed ages call → Allowed order call)
    (queue : ∀ ages order call, ages.Ordered order → contract.Allowed ages call →
      contract.Answers ages call (queueCall promotes order call).1 ∧
        (contract.after ages call (queueCall promotes order call).1).Ordered (queueCall promotes order call).2)
    (start : Holds r []) (start' : Holds' r' []) (calls : List ReplacerCall) :
    contract.Meets (Contract.both Answered Answered)
      (fun ages r => ∃ order, ages.Ordered order ∧ Holds r.1 order ∧ Holds' r.2 order) .start (r, r') calls := by
  refine Contract.meets_of_invariant _ (fun _ _ holds => holds) ?_ ⟨[], Ages.ordered_start, start, start'⟩ calls
  rintro ages ⟨r, r'⟩ call ⟨order, ordered, holds, holds'⟩ allowed
  obtain ⟨next, ran, after⟩ := first r order call holds (allows ages order call ordered allowed)
  obtain ⟨next', ran', after'⟩ := second r' order call holds' (allows ages order call ordered allowed)
  obtain ⟨right, ordered'⟩ := queue ages order call ordered allowed
  exact ⟨_, (next, next'), ⟨ran, ran'⟩, right, _, ordered', after, after'⟩

theorem mem_eq_of_ordered (ordered : ages.Ordered order) : (· ∈ ages.present) = (· ∈ order) :=
  funext fun m => propext (ordered.mem m).symm

section limit

open Indexed.ListArray PageTable

/-- The fields of a list of the largest size after `Insert(0)`. -/
def lastLinked : Links ℕ := (freshLinks (indexRange - 2)).linkAfter (head (indexRange - 2)) 0

/-- With `INVALID_INDEX` for the index of its tail a list links its last frame for ever, and every `Victim` takes it. -/
theorem victimFrom_lastLinked (skipsPinned : Bool) {list : Indexed.ListArray ℕ} (size : list.capacity = indexRange - 2)
    (links : list.links = lastLinked) : ∃ list' : Indexed.ListArray ℕ, list'.capacity = indexRange - 2 ∧
      list'.links = lastLinked ∧ Returns (fun fuel => victimFrom skipsPinned fuel list twoPages)
        (some 0, list', twoPages.lockFound (some 0)) := by
  have last : list.getTail = 0 := by
    rw [getTail, size, links]
    decide
  have here : frame list.capacity 0 = .ok (some 0) := by
    rw [size]
    rfl
  have evictable : twoPages.Evictable 0 := by decide
  have inOrder : twoPages.InOrder 0 := ⟨rfl, Or.inl rfl⟩
  have taken := inOrder.tryVictim skipsPinned
  rw [if_pos evictable, decide_eq_true evictable] at taken
  have stays : (list.removeFromIndex 0).2.links = lastLinked := by
    have room : ¬ list.capacity ≤ 0 := by
      rw [size]
      decide
    rw [Indexed.ListArray.removeFromIndex, if_neg room]
    change list.links.remove invalidIndex 0 = lastLinked
    rw [links]
    exact if_pos (Or.inl (by decide))
  refine ⟨(list.removeFromIndex 0).2, ?_, stays, 1, fun fuel enough => ?_⟩
  · rw [Indexed.ListArray.removeFromIndex]
    split_ifs <;> exact size
  · obtain ⟨more, rfl⟩ := Nat.exists_eq_add_of_le' enough
    simp only [victimFrom, NodeQueue.walk, last, searchNodes, here, ok_bind, taken]
    rfl

/-- A replacer that takes its only frame twice does not meet a contract that lets it take the oldest tracked frame. -/
theorem not_meets_of_taken_twice {R R' : Type} [FullPolicy R] [FullPolicy R']
    {contract : Contract (Ages ℕ) ReplacerCall ReplacerAnswer} {r : R} {r₀ r₁ r₂ r₃ : R'} {pt' : PageTable}
    (inserts : Answered r₀ (.insert 0) (.returned true) r₁)
    (takes : Answered r₁ (.victim twoPages) (.victim (some 0) pt') r₂)
    (again : Answered r₂ (.victim twoPages) (.victim (some 0) pt') r₃)
    (first : contract.Allowed .start (.insert 0))
    (allowed : ∀ ages : Ages ℕ, (∀ m ∈ ages.present, m = 0) → contract.Allowed ages (.victim twoPages))
    (oldest : ∀ (ages : Ages ℕ) answer, contract.Answers ages (.victim twoPages) answer →
      ∃ taken, ages.FirstOf twoPages.Evictable taken ∧ answer = .victim taken (twoPages.lockFound taken))
    (inserted : contract.after .start (.insert 0) (.returned true) = Ages.start.touch 0)
    (left : ∀ (ages : Ages ℕ) taken pt, contract.after ages (.victim twoPages) (.victim taken pt) =
      ages.forget taken.toList) : ¬ contract.Meets (Contract.both Answered Answered) (fun _ _ => True) .start (r, r₀)
        [.insert 0, .victim twoPages, .victim twoPages] := by
  rintro ⟨-, rest⟩
  obtain ⟨a₁, ⟨s₁, t₁⟩, ⟨-, ran⟩, -, -, rest⟩ := rest first
  cases ran.unique inserts
  rw [inserted] at rest
  obtain ⟨a₂, ⟨s₂, t₂⟩, ⟨-, ran⟩, -, -, rest⟩ := rest (allowed _ (by simp [Ages.touch, Ages.start]))
  cases ran.unique takes
  rw [left] at rest
  have gone : ((Ages.start.touch 0).forget (some 0).toList).present = ∅ := by decide
  obtain ⟨a₃, ⟨s₃, t₃⟩, ⟨-, ran⟩, right, -⟩ := rest (allowed _ (by rw [gone]; simp))
  cases ran.unique again
  obtain ⟨taken, oldest, same⟩ := oldest _ _ right
  cases same
  exact absurd (gone ▸ oldest.present) (Finset.notMem_empty 0)

end limit

/-- In every run of an LRU the replacer on the heap and the one on a `ListArray` give the same answers, and the ones
of an LRU; both hold the tracked frames in the order of their last uses. -/
theorem lru_replacers_agree {capacity : ℕ} (fits : capacity < indexRange - 2) (calls : List ReplacerCall) :
    (lruContract capacity).Meets (Contract.both Answered Answered)
      (fun ages r => ∃ order, ages.Ordered order ∧ r.1.nodes.Holds order ∧ r.2.list.Holds capacity order)
      .start ((⟨.new⟩ : LRUReplacer), (⟨.new capacity⟩ : LRUReplacer_v2)) calls := by
  refine meets_of_followsQueue (LRUReplacer.followsQueue capacity) (LRUReplacer_v2.followsQueue capacity)
    (fun ages order call ordered allowed => ?_) (fun _ _ _ ordered allowed => lruContract_queue capacity ordered allowed)
    NodeMap.holds_new (Indexed.ListArray.holds_new fits) calls
  exact mem_eq_of_ordered ordered ▸ allowed

/-- One frame is inserted and taken. -/
theorem lru_replacers_agree_oneFrame : (lruContract 1).Meets (Contract.both Answered Answered)
    (fun ages r => ∃ order, ages.Ordered order ∧ r.1.nodes.Holds order ∧ r.2.list.Holds 1 order)
      .start ((⟨.new⟩ : LRUReplacer), (⟨.new 1⟩ : LRUReplacer_v2)) [.insert 0, .victim PageTable.twoPages] :=
  lru_replacers_agree (by decide) _

theorem lru_takes_frame_twice : ¬ ∀ (capacity : ℕ) (calls : List ReplacerCall),
    (lruContract capacity).Meets (Contract.both Answered Answered) (fun _ _ => True)
      .start ((⟨.new⟩ : LRUReplacer), (⟨.new capacity⟩ : LRUReplacer_v2)) calls := by
  intro always
  obtain ⟨list₁, size₁, links₁, takes⟩ := @victimFrom_lastLinked true
    (((Indexed.ListArray.new (indexRange - 2)).setValue 0 0).moveToFront 0).2 rfl rfl
  obtain ⟨list₂, -, -, again⟩ := victimFrom_lastLinked true size₁ links₁
  have first : Answered (⟨_⟩ : LRUReplacer_v2) _ _ ⟨list₁⟩ := .victim (takes.bind .const)
  have second : Answered (⟨list₁⟩ : LRUReplacer_v2) _ _ ⟨list₂⟩ := .victim (again.bind .const)
  have allows : (lruContract (indexRange - 2)).Allowed .start (.insert 0) := ⟨by decide, by decide⟩
  refine not_meets_of_taken_twice (.insert rfl) first second allows (fun ages only m present => ?_)
    (fun _ _ right => right) rfl (fun _ _ _ => rfl) (always (indexRange - 2) _)
  exact only m present ▸ ⟨rfl, Or.inl rfl⟩

/-- In every run of a FIFO the replacer on the heap and the one on a `ListArray` give the same answers, and the ones
of a FIFO; both hold the tracked frames in the order of their insertions. -/
theorem fifo_replacers_agree {capacity : ℕ} (fits : capacity < indexRange - 2) (calls : List ReplacerCall) :
    (fifoContract capacity).Meets (Contract.both Answered Answered)
      (fun ages r => ∃ order, ages.Ordered order ∧ r.1.nodes.Holds order ∧ r.2.list.Holds capacity order)
      .start ((⟨.new⟩ : FIFOReplacer), (⟨.new capacity⟩ : FIFOReplacer_v2)) calls := by
  refine meets_of_followsQueue (FIFOReplacer.followsQueue capacity) (FIFOReplacer_v2.followsQueue capacity)
    (fun ages order call ordered allowed => ?_) (fun _ _ _ ordered _ => fifoContract_queue capacity ordered)
    NodeMap.holds_new (Indexed.ListArray.holds_new fits) calls
  exact mem_eq_of_ordered ordered ▸ allowed

/-- One frame is inserted and taken in a batch. -/
theorem fifo_replacers_agree_oneFrame : (fifoContract 1).Meets (Contract.both Answered Answered)
    (fun ages r => ∃ order, ages.Ordered order ∧ r.1.nodes.Holds order ∧ r.2.list.Holds 1 order)
      .start ((⟨.new⟩ : FIFOReplacer), (⟨.new 1⟩ : FIFOReplacer_v2)) [.insert 0, .victims PageTable.twoPages [] 1] :=
  fifo_replacers_agree (by decide) _

theorem fifo_takes_frame_twice : ¬ ∀ (capacity : ℕ) (calls : List ReplacerCall),
    (fifoContract capacity).Meets (Contract.both Answered Answered) (fun _ _ => True)
      .start ((⟨.new⟩ : FIFOReplacer), (⟨.new capacity⟩ : FIFOReplacer_v2)) calls := by
  intro always
  obtain ⟨list₁, size₁, links₁, takes⟩ := @victimFrom_lastLinked false
    ((Indexed.ListArray.new (indexRange - 2)).moveToFront 0).2 rfl rfl
  obtain ⟨list₂, -, -, again⟩ := victimFrom_lastLinked false size₁ links₁
  have first : Answered (⟨_⟩ : FIFOReplacer_v2) _ _ ⟨list₁⟩ := .victim (takes.bind .const)
  have second : Answered (⟨list₁⟩ : FIFOReplacer_v2) _ _ ⟨list₂⟩ := .victim (again.bind .const)
  have allows : (fifoContract (indexRange - 2)).Allowed .start (.insert 0) := show 0 < indexRange - 2 by decide
  refine not_meets_of_taken_twice (.insert rfl) first second allows (fun ages only m present => ?_)
    (fun _ _ right => right) rfl (fun _ _ _ => rfl) (always (indexRange - 2) _)
  exact only m present ▸ ⟨rfl, Or.inl rfl⟩

end Gbp
