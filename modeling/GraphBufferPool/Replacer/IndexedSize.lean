import GraphBufferPool.Replacer.IndexedList

/-! # `insertToFront` and `size_`

`insertToFront` overwrites the fields of a node before it unlinks it, and `size_` goes down with every
removal and never up. The first is right for the nodes that are not linked, the second for the runs that
neither link nor remove a node.
-/

namespace Gbp

namespace Indexed

variable {α : Type} [Inhabited α] {list : ListArray α}

namespace ListArray

variable {xs : List ℕ} {i : ℕ}

/-- `insertToFront` puts the node in front of the others, with the value. -/
def InsertsInFront (list : ListArray α) (xs : List ℕ) (i : ℕ) (value : α) : Prop :=
  ∃ list', list.insertToFront i value = (true, list') ∧ list'.WellFormed (i :: xs.erase i) ∧ list'.val i = value

omit [Inhabited α] in
/-- The constructor `ListNode(value)` clears the fields of an unlinked node once more. -/
theorem WellFormed.assignNode (wellFormed : list.WellFormed xs) (inside : i < list.capacity) (fresh : i ∉ xs)
    (value : α) : (list.assignNode i value).WellFormed xs := by
  obtain ⟨other, last, some⟩ := wellFormed.apart inside
  obtain ⟨next, prev⟩ := wellFormed.threaded.outside i (Links.Threaded.not_mem_cells other last fresh) some
  have same : (list.links.setPrev i invalidIndex).setNext i invalidIndex = list.links := by
    rw [← next, Links.setNext, Links.setPrev, next, ← prev]
    simp only [Function.update_eq_self]
    rw [prev, ← next, Function.update_eq_self]
  have links : (list.assignNode i value).links = list.links := same
  exact ⟨wellFormed.fits, links ▸ wellFormed.threaded, wellFormed.inside, links ▸ wellFormed.ends⟩

omit [Inhabited α] in
/-- Of a node that was linked, its neighbour in front keeps pointing to it, or the node points to itself. -/
theorem WellFormed.insertToFront_cycle (wellFormed : list.WellFormed xs) (member : i ∈ xs) (value : α) :
    ∃ p ∈ xs, (list.insertToFront i value).2.links.next p = i := by
  have inside := wellFormed.inside i member
  obtain ⟨other, last, some⟩ := wellFormed.apart inside
  have distinct := wellFormed.threaded.nodup.sublist ((List.sublist_append_left ..).cons_cons (head list.capacity))
  have apart := wellFormed.threaded.seg.prev_ne distinct member
  have back := wellFormed.threaded.seg.next_prev (List.mem_append_left _ member)
  have links : (list.insertToFront i value).2.links =
      ((list.links.setPrev i invalidIndex).setNext i invalidIndex).linkAfter (head list.capacity) i := by
    rw [insertToFront, if_neg (Nat.not_le.mpr inside)]
    simp only [ListArray.addNodeToFront, ListArray.removeNode, ListArray.assignNode, Links.remove, Links.setNext_next,
      if_true, true_or]
  rw [links]
  by_cases front : list.links.prev i = head list.capacity
  · rw [front] at back
    refine ⟨i, member, ?_⟩
    rw [Links.linkAfter_next, if_neg other, if_pos rfl, Links.setNext_next, if_neg other.symm]
    exact back
  · have ahead := (List.mem_cons.mp (wellFormed.threaded.seg.prev_mem_of_mem member)).resolve_left front
    refine ⟨_, ahead, ?_⟩
    rw [Links.linkAfter_next, if_neg front, if_neg apart, Links.setNext_next, if_neg apart]
    exact back

omit [Inhabited α] in
/-- `insertToFront` keeps a list well formed if and only if the node was not linked. -/
theorem insertToFront_wellFormed_iff (wellFormed : list.WellFormed xs) (inside : i < list.capacity) (value : α) :
    list.InsertsInFront xs i value ↔ i ∉ xs := by
  constructor
  · rintro ⟨list', inserted, after, -⟩ member
    obtain ⟨p, linked, next⟩ := wellFormed.insertToFront_cycle member value
    rw [inserted] at next
    have capacity : list'.capacity = list.capacity := by
      have pair := congrArg (fun result => result.2.capacity) inserted
      rw [insertToFront, if_neg (Nat.not_le.mpr inside)] at pair
      exact pair.symm
    have listed : p ∈ i :: xs.erase i := by
      by_cases same : p = i
      · exact same ▸ List.mem_cons_self ..
      · exact List.mem_cons_of_mem _ ((List.mem_erase_of_ne same).mpr linked)
    have seg := after.threaded.seg
    have cell := seg.prev_next (List.mem_cons_of_mem _ listed)
    rw [next, seg.1.2] at cell
    exact after.threaded.ne_head listed cell.symm
  · intro fresh
    have assigned := wellFormed.assignNode inside fresh value
    refine ⟨_, if_neg (Nat.not_le.mpr inside), ?_, Function.update_self ..⟩
    have absent : i ∉ xs.erase i := fun member => fresh (List.mem_of_mem_erase member)
    exact (assigned.removeNode inside).addNodeToFront inside absent

/-- The second frame enters a list of one. -/
theorem insertToFront_wellFormed_iff_twoFrames :
    ((new 2 : ListArray ℕ).moveToFront 0).2.InsertsInFront [0] 1 7 ↔ 1 ∉ [0] :=
  insertToFront_wellFormed_iff ((wellFormed_new (by decide)).moveToFront (by decide)) (by decide) 7

/-- The only frame of a list, put in front again, is its own neighbour. -/
theorem insertToFront_breaks : ¬ ∀ (list : ListArray ℕ) (xs : List ℕ) (i value : ℕ), list.WellFormed xs →
    i < list.capacity → list.InsertsInFront xs i value := by
  intro always
  obtain ⟨list', inserted, after, -⟩ := always ((new 1 : ListArray ℕ).moveToFront 0).2 [0] 0 7
    ((wellFormed_new (by decide)).moveToFront (by decide)) (by decide)
  obtain rfl : _ = list' := (Prod.ext_iff.mp inserted).2
  exact absurd after.threaded.seg.1.2 (by decide)

end ListArray

/-- A call of the list. -/
inductive SizedCall (α : Type)
  | call (c : ListCall)
  | insertToFront (i : ℕ) (value : α)

/-- The calls that leave the list alone, or new: they link no node and remove none. -/
def ListCall.Idle (capacity : ℕ) : ListCall → Prop
  | moveToFront i | removeFromIndex i => capacity ≤ i
  | clean => True

namespace SizedCall

/-- The list after the call. -/
def relink (list : ListArray α) : SizedCall α → ListArray α
  | call c => c.relink list
  | insertToFront i value => (list.insertToFront i value).2

/-- The calls that leave the list alone, or new. -/
def Idle (capacity : ℕ) : SizedCall α → Prop
  | call c => c.Idle capacity
  | insertToFront i _ => capacity ≤ i

end SizedCall

/-- What `SieveReplacer_v3` asks of its list: `Insert` and `Replace` move a frame to the front, `Victim` and
`Erase` remove one, and `Promote` stores a value. -/
inductive SieveCall
  | insert (value : ℕ)
  | promote (value : ℕ)
  | victim (value : ℕ)
  | replace (value : ℕ)
  | erase (value : ℕ)
  | clean
deriving DecidableEq, Repr

namespace SieveCall

/-- The call of the list that relinks it. -/
def onList : SieveCall → Option ListCall
  | insert value | replace value => some (.moveToFront value)
  | victim value | erase value => some (.removeFromIndex value)
  | clean => some .clean
  | promote _ => none

/-- The list after the call. -/
def relink (list : ListArray α) (call : SieveCall) : ListArray α := (call.onList.map fun c => c.relink list).getD list

end SieveCall

namespace ListArray

variable {i : ℕ}

/-- `SieveReplacer_v3::Size`. -/
def sieveSize (list : ListArray α) : ℕ := list.size

/-- The number of nodes between the sentinels. -/
def HasLinked (list : ListArray α) (n : ℕ) : Prop :=
  ∃ xs, list.links.Seg (head list.capacity) xs (tail list.capacity) ∧ tail list.capacity ∉ xs ∧ n = xs.length

/-- `size` answers with the number of linked nodes. -/
def SizeExact (list : ListArray α) : Prop := list.HasLinked list.size

/-- As the constructor leaves it. -/
structure Untouched (capacity : ℕ) (list : ListArray α) : Prop where
  bound : list.capacity = capacity
  links : list.links = freshLinks capacity
  size : list.size = 0

variable {capacity : ℕ}

theorem untouched_new (capacity : ℕ) : Untouched capacity (new capacity : ListArray α) := ⟨rfl, rfl, rfl⟩

omit [Inhabited α] in
theorem Untouched.sizeExact (untouched : Untouched capacity list) : list.SizeExact := by
  refine ⟨[], ⟨?_, ?_⟩, List.not_mem_nil, untouched.size⟩
  · rw [untouched.links, untouched.bound, freshLinks_next, if_pos rfl]
  · rw [untouched.links, untouched.bound, freshLinks_prev, if_pos rfl]

omit [Inhabited α] in
/-- No node of a new list is linked, the sentinels included. -/
theorem Untouched.remove (untouched : Untouched capacity list) (i : ℕ) :
    list.links.remove invalidIndex i = list.links := by
  refine if_pos ?_
  rw [untouched.links, freshLinks_next, freshLinks_prev]
  by_cases first : i = head capacity
  · exact Or.inr (if_neg (first ▸ head_ne_tail capacity))
  · exact Or.inl (if_neg first)

omit [Inhabited α] in
/-- A node was put in front without a change of `size_`. -/
theorem not_sizeExact_linkAfter {links : Links ℕ} (linked : list.links = links.linkAfter (head list.capacity) i)
    (next : i = tail list.capacity → links.next (head list.capacity) = tail list.capacity) (size : list.size = 0) :
    ¬ list.SizeExact := by
  rintro ⟨xs, seg, -, length⟩
  obtain rfl : xs = [] := List.eq_nil_of_length_eq_zero (length.symm.trans size)
  have first : list.links.next (head list.capacity) = i := by rw [linked, Links.linkAfter_next, if_pos rfl]
  have last : i = tail list.capacity := first.symm.trans seg.1
  have other : i ≠ head list.capacity := last ▸ (head_ne_tail _).symm
  have self : list.links.prev (tail list.capacity) = i := by
    rw [linked, Links.linkAfter_prev other, next last, if_pos rfl]
  exact other (self.symm.trans seg.2)

/-- An idle call leaves a list as the constructor does. -/
theorem Untouched.idle (untouched : Untouched capacity list) {call : ListCall} (idle : call.Idle capacity) :
    Untouched capacity (call.relink list) := by
  cases call with
  | moveToFront i =>
    rw [ListCall.relink, moveToFront, if_pos (untouched.bound.trans_le idle)]
    exact untouched
  | removeFromIndex i =>
    rw [ListCall.relink, removeFromIndex, if_pos (untouched.bound.trans_le idle)]
    exact untouched
  | clean => exact ⟨untouched.bound, congrArg freshLinks untouched.bound, untouched.size⟩

/-- Any other call of a new list makes `size_` wrong. -/
theorem Untouched.not_sizeExact (untouched : Untouched capacity list) {call : ListCall} (busy : ¬ call.Idle capacity) :
    ¬ (call.relink list).SizeExact := by
  have size := untouched.bound
  cases call with
  | moveToFront i =>
    rw [ListCall.relink, ListArray.moveToFront, if_neg (by rw [size]; exact busy)]
    refine @not_sizeExact_linkAfter _ _ i list.links ?_ (fun _ => ?_) untouched.size
    · change (list.links.remove invalidIndex i).linkAfter _ i = _
      rw [untouched.remove]
      rfl
    · change list.links.next (head list.capacity) = tail list.capacity
      rw [untouched.links, size, freshLinks_next, if_pos rfl]
  | removeFromIndex i =>
    rw [ListCall.relink, ListArray.removeFromIndex, if_neg (by rw [size]; exact busy)]
    rintro ⟨xs, seg, apart, length⟩
    change (list.links.remove invalidIndex i).Seg (head list.capacity) xs (tail list.capacity) at seg
    rw [untouched.remove, untouched.links, size] at seg
    have none : xs = [] := by
      cases xs with
      | nil => rfl
      | cons x xs =>
        refine absurd ?_ apart
        have first := seg.1.1
        rw [freshLinks_next, if_pos rfl] at first
        change tail list.capacity ∈ x :: xs
        rw [size, first]
        exact List.mem_cons_self ..
    rw [none] at length
    change (list.size + (2 ^ 64 - 1)) % 2 ^ 64 = 0 at length
    rw [untouched.size] at length
    exact absurd length (by decide)
  | clean => exact absurd trivial busy

theorem Untouched.idle_sized (untouched : Untouched capacity list) {call : SizedCall α} (idle : call.Idle capacity) :
    Untouched capacity (call.relink list) := by
  cases call with
  | call c => exact untouched.idle idle
  | insertToFront i value =>
    rw [SizedCall.relink, insertToFront, if_pos (untouched.bound.trans_le idle)]
    exact untouched

theorem Untouched.not_sizeExact_sized (untouched : Untouched capacity list) {call : SizedCall α}
    (busy : ¬ call.Idle capacity) : ¬ (call.relink list).SizeExact := by
  cases call with
  | call c => exact untouched.not_sizeExact busy
  | insertToFront i value =>
    have size := untouched.bound
    have other : tail capacity ≠ head capacity := (head_ne_tail capacity).symm
    rw [SizedCall.relink, insertToFront, if_neg (by rw [size]; exact busy)]
    refine @not_sizeExact_linkAfter _ _ i ((list.links.setPrev i invalidIndex).setNext i invalidIndex) ?_
      (fun last => ?_) untouched.size
    · change (((list.links.setPrev i invalidIndex).setNext i invalidIndex).remove invalidIndex i).linkAfter _ i = _
      rw [Links.remove, if_pos (Or.inl (by rw [Links.setNext_next, if_pos rfl]))]
      rfl
    · change i = tail list.capacity at last
      change ((list.links.setPrev i invalidIndex).setNext i invalidIndex).next (head list.capacity) = tail list.capacity
      rw [Links.setNext_next, if_neg (by rw [last, size]; exact other.symm), Links.setPrev_next, untouched.links, size,
        freshLinks_next, if_pos rfl]

/-- `size_` counts the linked nodes throughout a run if and only if no call of the run links or removes a node,
and what `SieveReplacer_v3::Size` reports is right throughout under the same condition. -/
theorem size_exact_iff (capacity : ℕ) (calls : List (SizedCall α)) (sieveCalls : List SieveCall) :
    ((∀ before, before <+: calls → (before.foldl SizedCall.relink (new capacity)).SizeExact) ↔
        ∀ call ∈ calls, call.Idle capacity) ∧
      ((∀ before, before <+: sieveCalls → (before.foldl SieveCall.relink (new capacity : ListArray α)).HasLinked
          (before.foldl SieveCall.relink (new capacity : ListArray α)).sieveSize) ↔
        ∀ call ∈ sieveCalls, ∀ c ∈ call.onList, c.Idle capacity) := by
  refine ⟨Runs.prefixes_iff (fun _ => Untouched.sizeExact) (fun _ _ untouched => untouched.idle_sized)
    (fun _ _ untouched => untouched.not_sizeExact_sized) (untouched_new capacity), ?_⟩
  refine @Runs.prefixes_iff _ _ (Untouched capacity) (fun list => list.HasLinked list.sieveSize) _ _ _ _
    (fun _ => Untouched.sizeExact) (fun list call untouched idle => ?_)
    (fun list call untouched busy => ?_) (untouched_new capacity)
  · unfold SieveCall.relink
    cases relinks : call.onList with
    | none => exact untouched
    | some c => exact untouched.idle (idle c relinks)
  · unfold SieveCall.relink
    cases relinks : call.onList with
    | none => exact absurd (fun c member => by rw [relinks] at member; cases member) busy
    | some c =>
      refine untouched.not_sizeExact fun idle => busy fun c' member => ?_
      rw [relinks] at member
      cases member
      exact idle

/-- After one `Insert`, `Size` is 0. -/
theorem size_not_exact : ¬ ∀ (capacity : ℕ) (calls : List (SizedCall ℕ)),
    (calls.foldl SizedCall.relink (new capacity)).SizeExact := by
  intro always
  obtain ⟨xs, seg, -, length⟩ := always 1 [.call (.moveToFront 0)]
  obtain rfl : xs = [] := List.eq_nil_of_length_eq_zero length.symm
  exact absurd seg.1 (by decide)

end ListArray

end Indexed

end Gbp
