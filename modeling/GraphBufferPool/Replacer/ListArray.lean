import Mathlib

/-! # The list of the replacers as a sequence

`ListArray` keeps frames in a doubly linked list threaded through an array, with two sentinels. What it stands for is the
sequence of linked frames from the front, and the value stored at each index. `getPrevNodeIndex` walks towards the front;
an unlinked index has no neighbours. The list with its index fields refines this sequence for up to `2 ^ 32 - 3` frames,
which are more than a pool has.
-/

namespace Gbp

/-- What an index field of a `ListNode` may name. -/
inductive ListIndex
  | head
  | node (i : ℕ)
  | invalid
deriving DecidableEq, Repr

/-- `ListArray`: the linked indices from front to back, and `nodes_[i].val`. -/
structure ListArray where
  capacity : ℕ
  nodes : List ℕ
  val : ℕ → ℕ

namespace ListArray

/-- An empty list. The values of a fresh node array are not read before `Insert` sets them. -/
def new (capacity : ℕ) : ListArray := ⟨capacity, [], fun _ => 0⟩

/-- `inList`. -/
def inList (list : ListArray) (i : ℕ) : Bool := decide (i ∈ list.nodes)

/-- `moveToFront`: unlink if linked, then link behind the head sentinel. -/
def moveToFront (list : ListArray) (i : ℕ) : Bool × ListArray :=
  if list.capacity ≤ i then (false, list)
  else (true, { list with nodes := i :: list.nodes.erase i })

/-- `removeFromIndex`. -/
def removeFromIndex (list : ListArray) (i : ℕ) : ListArray :=
  if list.capacity ≤ i then list else { list with nodes := list.nodes.erase i }

/-- A store to `getValue(i)`. -/
def setValue (list : ListArray) (i value : ℕ) : ListArray :=
  { list with val := Function.update list.val i value }

/-- The neighbour towards the front of `i` in `nodes`, the node before `nodes` being `before`. -/
def prevIn (before : ListIndex) : List ℕ → ℕ → ListIndex
  | [], _ => .invalid
  | x :: rest, i => if x = i then before else prevIn (.node x) rest i

/-- `getPrevNodeIndex`. -/
def getPrevNodeIndex (list : ListArray) (i : ℕ) : ListIndex := prevIn .head list.nodes i

/-- `GetTail`: the last linked node, the head sentinel when there is none. -/
def getTail (list : ListArray) : ListIndex :=
  match list.nodes.getLast? with
  | some i => .node i
  | none => .head

/-- Where the sweeps of the replacers move from `i`: one node towards the front, from the front
back to the tail. -/
def sweepFrom (list : ListArray) (i : ℕ) : ListIndex :=
  if list.getPrevNodeIndex i = .head then list.getTail else list.getPrevNodeIndex i

/-- `Clean`: a fresh node array. -/
def clean (list : ListArray) : ListArray := new list.capacity

theorem prevIn_mem {before : ListIndex} {nodes : List ℕ} {i j : ℕ}
    (found : prevIn before nodes i = .node j) : j ∈ nodes ∨ before = .node j := by
  induction nodes generalizing before with
  | nil => cases found
  | cons x rest ih =>
    simp only [prevIn] at found
    split_ifs at found with here
    · exact Or.inr found
    · rcases ih found with later | same
      · exact Or.inl (List.mem_cons_of_mem _ later)
      · cases same
        exact Or.inl (List.mem_cons_self ..)

theorem prevIn_eq_invalid_iff {before : ListIndex} {nodes : List ℕ} {i : ℕ}
    (linked : before ≠ .invalid) : prevIn before nodes i = .invalid ↔ i ∉ nodes := by
  induction nodes generalizing before with
  | nil => simp [prevIn]
  | cons x rest ih =>
    simp only [prevIn, List.mem_cons, not_or]
    split_ifs with here
    · simp [here, linked]
    · rw [ih (by simp)]
      simp [Ne.symm here]

theorem getTail_mem {list : ListArray} {i : ℕ} (tail : list.getTail = .node i) :
    i ∈ list.nodes := by
  unfold getTail at tail
  split at tail
  · next last => cases tail; exact List.mem_of_getLast? last
  · cases tail

/-- The neighbour of a linked node is linked, or the node is the first one. -/
theorem getPrevNodeIndex_ne_invalid {list : ListArray} {i : ℕ} (linked : i ∈ list.nodes) :
    list.getPrevNodeIndex i ≠ .invalid := by
  rw [getPrevNodeIndex, Ne, prevIn_eq_invalid_iff (by simp)]
  exact not_not.mpr linked

private theorem prevIn_ne_self {before : ListIndex} {nodes : List ℕ} {i : ℕ} (distinct : nodes.Nodup)
    (outside : before ≠ .node i) : prevIn before nodes i ≠ .node i := by
  induction nodes generalizing before with
  | nil => simp [prevIn]
  | cons x rest ih =>
    simp only [prevIn]
    split_ifs with here
    · exact outside
    · exact ih (List.nodup_cons.mp distinct).2 (by simpa using here)

/-- After its removal, a node's former neighbour is still linked. -/
theorem getPrevNodeIndex_mem_erase {list : ListArray} {i j : ℕ} (distinct : list.nodes.Nodup)
    (prev : list.getPrevNodeIndex i = .node j) : j ∈ list.nodes.erase i := by
  have other : j ≠ i := by
    rintro rfl
    exact prevIn_ne_self distinct (by simp) prev
  exact (List.mem_erase_of_ne other).mpr ((prevIn_mem prev).resolve_right (by simp))

/-- A sweep from any index reaches only linked nodes. -/
theorem sweepFrom_mem {list : ListArray} {i j : ℕ} (moved : list.sweepFrom i = .node j) :
    j ∈ list.nodes := by
  unfold sweepFrom at moved
  split_ifs at moved
  · exact getTail_mem moved
  · exact (prevIn_mem moved).resolve_right (by simp)

/-- From a linked node the sweep goes on at a linked node. -/
theorem exists_sweepFrom {list : ListArray} {i : ℕ} (linked : i ∈ list.nodes) :
    ∃ j ∈ list.nodes, list.sweepFrom i = .node j := by
  cases moved : list.sweepFrom i with
  | node j => exact ⟨j, sweepFrom_mem moved, rfl⟩
  | head =>
    unfold sweepFrom getTail at moved
    split_ifs at moved with front
    · split at moved
      · cases moved
      · next none => simp [List.getLast?_eq_none_iff.mp none] at linked
    · exact absurd moved front
  | invalid =>
    unfold sweepFrom getTail at moved
    split_ifs at moved with front
    · split at moved <;> cases moved
    · exact absurd linked ((prevIn_eq_invalid_iff (by simp)).mp moved)

theorem sweepFrom_setValue (list : ListArray) (k value i : ℕ) :
    (list.setValue k value).sweepFrom i = list.sweepFrom i := rfl

private theorem prevIn_idxOf (before : ListIndex) {nodes : List ℕ} {i : ℕ} (distinct : nodes.Nodup)
    (linked : i ∈ nodes) : nodes.idxOf i = 0 ∧ prevIn before nodes i = before ∨
      ∃ j ∈ nodes, prevIn before nodes i = .node j ∧ nodes.idxOf j + 1 = nodes.idxOf i := by
  induction nodes generalizing before with
  | nil => simp at linked
  | cons x rest ih =>
    obtain ⟨fresh, distinct⟩ := List.nodup_cons.mp distinct
    simp only [prevIn]
    split_ifs with here
    · exact Or.inl ⟨by simp [here], rfl⟩
    · right
      rw [List.idxOf_cons_ne rest here]
      have later : i ∈ rest := (List.mem_cons.mp linked).resolve_left (Ne.symm here)
      rcases ih (.node x) distinct later with ⟨first, prev⟩ | ⟨j, member, prev, index⟩
      · exact ⟨x, List.mem_cons_self .., prev, by rw [List.idxOf_cons_self, first]⟩
      · have other : x ≠ j := by
          rintro rfl
          exact fresh member
        refine ⟨j, List.mem_cons_of_mem _ member, prev, ?_⟩
        rw [List.idxOf_cons_ne rest other]
        omega

/-- The number of moves of the sweep from node `i` to node `target`. -/
def distance (list : ListArray) (target i : ℕ) : ℕ :=
  if list.nodes.idxOf target ≤ list.nodes.idxOf i then list.nodes.idxOf i - list.nodes.idxOf target
  else list.nodes.idxOf i + list.nodes.length - list.nodes.idxOf target

theorem distance_lt {list : ListArray} (target : ℕ) {i : ℕ} (linked : i ∈ list.nodes) :
    list.distance target i < list.nodes.length := by
  have := List.idxOf_lt_length_of_mem linked
  unfold distance
  split_ifs <;> omega

/-- The sweep comes one node closer to any other linked node; from the node itself it goes once
around. -/
theorem exists_sweepFrom_distance {list : ListArray} {target i : ℕ} (distinct : list.nodes.Nodup)
    (linked : i ∈ list.nodes) (member : target ∈ list.nodes) :
    ∃ j ∈ list.nodes, list.sweepFrom i = .node j ∧ list.distance target j + 1 =
      if i = target then list.nodes.length else list.distance target i := by
  have inside := List.idxOf_lt_length_of_mem linked
  have targetInside := List.idxOf_lt_length_of_mem member
  have same : i = target ↔ list.nodes.idxOf i = list.nodes.idxOf target :=
    ⟨fun same => by rw [same], fun index => (List.idxOf_inj linked).mp index⟩
  rcases prevIn_idxOf .head distinct linked with ⟨first, prev⟩ | ⟨j, later, prev, index⟩
  · obtain ⟨j, last⟩ : ∃ j, list.nodes.getLast? = some j := by
      cases last : list.nodes.getLast? with
      | none => simp [List.getLast?_eq_none_iff.mp last] at linked
      | some j => exact ⟨j, rfl⟩
    have tail : list.sweepFrom i = .node j := by
      simp only [sweepFrom, getPrevNodeIndex, prev, getTail, last, if_true]
    have index : list.nodes.idxOf j = list.nodes.length - 1 := by
      rw [List.getLast?_eq_getElem?] at last
      obtain ⟨bound, value⟩ := List.getElem?_eq_some_iff.mp last
      rw [← value, distinct.idxOf_getElem]
    refine ⟨j, List.mem_of_getLast? last, tail, ?_⟩
    simp only [distance, same, index, first]
    split_ifs <;> omega
  · refine ⟨j, later, ?_, ?_⟩
    · simp only [sweepFrom, getPrevNodeIndex, prev]
      rw [if_neg (by simp)]
    · simp only [distance, same]
      split_ifs <;> omega

/-- The values left on the linked nodes. -/
def marks (list : ListArray) : ℕ := (list.nodes.map list.val).sum

/-- A store to a linked node exchanges its mark. -/
theorem marks_setValue {list : ListArray} {i : ℕ} (distinct : list.nodes.Nodup) (linked : i ∈ list.nodes) (value : ℕ) :
    (list.setValue i value).marks + list.val i = list.marks + value := by
  have others : ∀ k ∈ list.nodes.erase i, (list.setValue i value).val k = list.val k := by
    intro k member
    exact Function.update_of_ne (distinct.mem_erase_iff.mp member).1 ..
  have here : (list.setValue i value).val i = value := Function.update_self ..
  have before := List.sum_map_erase list.val linked
  have after := List.sum_map_erase (list.setValue i value).val linked
  rw [List.map_congr_left others, here] at after
  unfold marks
  simp only [setValue] at after ⊢
  omega

end ListArray

end Gbp
