import GraphBufferPool.Lib.Threaded
import GraphBufferPool.Lib.Runs
import GraphBufferPool.Replacer.ListArray

/-! # `ListArray` with its index fields

`ListArray<value_type>` as the source has it: the fields `prev` and `next` of `nodes_` hold 32-bit indices, the
sentinels lie behind the nodes, `INVALID_INDEX` is the largest index, and `size_` is kept by hand. As long
as the sentinels have indices of their own, the calls that relink nodes keep a doubly linked list of the
nodes that they leave in the sequence the replacers are modelled on.
-/

namespace Gbp

/-- The number of values of `index_type`. -/
abbrev indexRange : ℕ := 2 ^ 32

/-- `INVALID_INDEX`. -/
abbrev invalidIndex : ℕ := 2 ^ 32 - 1

namespace Indexed

/-- `ListArray`: the fields of `nodes_`, and `size_`. -/
structure ListArray (α : Type) where
  capacity : ℕ
  links : Links ℕ
  val : ℕ → α
  size : ℕ

namespace ListArray

variable {α : Type}

/-- `head_`. -/
def head (capacity : ℕ) : ℕ := capacity % indexRange

/-- `tail_`. -/
def tail (capacity : ℕ) : ℕ := (capacity + 1) % indexRange

/-- The fields of a new node array, with the stores that link the sentinels. -/
def freshLinks (capacity : ℕ) : Links ℕ :=
  let links : Links ℕ := ⟨fun _ => invalidIndex, fun _ => invalidIndex⟩
  let links := (links.setNext (tail capacity) invalidIndex).setPrev (head capacity) invalidIndex
  (links.setNext (head capacity) (tail capacity)).setPrev (tail capacity) (head capacity)

section calls

variable [Inhabited α]

/-- The constructor. -/
def new (capacity : ℕ) : ListArray α := ⟨capacity, freshLinks capacity, fun _ => default, 0⟩

/-- `Clean`. -/
def clean (list : ListArray α) : ListArray α :=
  { list with links := freshLinks list.capacity, val := fun _ => default }

end calls

/-- `inList`. -/
def inList (list : ListArray α) (i : ℕ) : Bool :=
  list.links.next i ≠ invalidIndex ∧ list.links.prev i ≠ invalidIndex

/-- `removeNode`. -/
def removeNode (list : ListArray α) (i : ℕ) : ListArray α := { list with links := list.links.remove invalidIndex i }

/-- `addNodeToFront`. -/
def addNodeToFront (list : ListArray α) (i : ℕ) : ListArray α :=
  { list with links := list.links.linkAfter (head list.capacity) i }

/-- `moveToFront`. -/
def moveToFront (list : ListArray α) (i : ℕ) : Bool × ListArray α :=
  if list.capacity ≤ i then (false, list)
  else (true, (list.removeNode i).addNodeToFront i)

/-- `nodes_[nodeIndex] = value`, through the constructor `ListNode(value)`. -/
def assignNode (list : ListArray α) (i : ℕ) (value : α) : ListArray α :=
  { list with
    links := (list.links.setPrev i invalidIndex).setNext i invalidIndex
    val := Function.update list.val i value }

/-- A store to `getValue(i)`. -/
def setValue (list : ListArray α) (i : ℕ) (value : α) : ListArray α :=
  { list with val := Function.update list.val i value }

/-- `insertToFront`. -/
def insertToFront (list : ListArray α) (i : ℕ) (value : α) : Bool × ListArray α :=
  if list.capacity ≤ i then (false, list)
  else (true, ((list.assignNode i value).removeNode i).addNodeToFront i)

/-- `removeFromIndex`; `size_` is a `size_t`. -/
def removeFromIndex (list : ListArray α) (i : ℕ) : Bool × ListArray α :=
  if list.capacity ≤ i then (false, list)
  else (true, { list.removeNode i with size := (list.size + (2 ^ 64 - 1)) % 2 ^ 64 })

/-- `getPrevNodeIndex`. -/
def getPrevNodeIndex (list : ListArray α) (i : ℕ) : ℕ :=
  if i = invalidIndex ∨ list.capacity ≤ i then invalidIndex else list.links.prev i

/-- `GetTail`. -/
def getTail (list : ListArray α) : ℕ := list.links.prev (tail list.capacity)

/-- Where the sweeps of the replacers move from `i`: one node towards the front, from the front back to the tail. -/
def sweepFrom (list : ListArray α) (i : ℕ) : ℕ :=
  if list.getPrevNodeIndex i = head list.capacity then list.getTail else list.getPrevNodeIndex i

/-- A list with these nodes linked, whose sentinels are no nodes and not `INVALID_INDEX`. -/
structure WellFormed (list : ListArray α) (xs : List ℕ) : Prop where
  fits : list.capacity < indexRange - 2
  threaded : list.links.Threaded (head list.capacity) (tail list.capacity) invalidIndex xs
  inside : ∀ i ∈ xs, i < list.capacity
  ends : list.links.prev (head list.capacity) = invalidIndex ∧ list.links.next (tail list.capacity) = invalidIndex

variable {list : ListArray α} {xs : List ℕ} {i capacity : ℕ}

theorem head_eq (fits : capacity < indexRange - 2) : head capacity = capacity := Nat.mod_eq_of_lt (by omega)

theorem tail_eq (fits : capacity < indexRange - 2) : tail capacity = capacity + 1 := Nat.mod_eq_of_lt (by omega)

theorem lt_invalid (fits : capacity < indexRange - 2) : capacity + 1 < invalidIndex := by
  unfold indexRange at fits
  unfold invalidIndex
  omega

/-- The sentinels are never one node. -/
theorem head_ne_tail (capacity : ℕ) : head capacity ≠ tail capacity := by
  unfold head tail indexRange
  omega

theorem freshLinks_next (capacity i : ℕ) :
    (freshLinks capacity).next i = if i = head capacity then tail capacity else invalidIndex := by
  simp [freshLinks]

theorem freshLinks_prev (capacity i : ℕ) :
    (freshLinks capacity).prev i = if i = tail capacity then head capacity else invalidIndex := by
  simp [freshLinks]

section calls

variable [Inhabited α]

theorem wellFormed_new (fits : capacity < indexRange - 2) : (new capacity : ListArray α).WellFormed [] := by
  have first := head_eq fits
  have last := tail_eq fits
  have bound := lt_invalid fits
  have apart := head_ne_tail capacity
  refine ⟨fits, ⟨⟨?_, ?_⟩, ?_, ?_, ?_⟩, by simp, ?_, ?_⟩
  · exact (freshLinks_next ..).trans (if_pos rfl)
  · exact (freshLinks_prev ..).trans (if_pos rfl)
  · exact List.nodup_cons.mpr ⟨List.mem_singleton.not.mpr apart, List.nodup_singleton _⟩
  · change invalidIndex ∉ head capacity :: [tail capacity]
    rw [first, last, List.mem_cons, List.mem_singleton]
    omega
  · intro p outside _
    obtain ⟨other, outside⟩ := not_or.mp (List.mem_cons.not.mp outside)
    refine ⟨(freshLinks_next ..).trans (if_neg other), (freshLinks_prev ..).trans (if_neg ?_)⟩
    exact List.mem_singleton.not.mp outside
  · exact (freshLinks_prev ..).trans (if_neg apart)
  · exact (freshLinks_next ..).trans (if_neg apart.symm)

theorem WellFormed.clean (wellFormed : list.WellFormed xs) : list.clean.WellFormed [] :=
  have fresh : (new list.capacity : ListArray α).WellFormed [] := wellFormed_new wellFormed.fits
  ⟨fresh.fits, fresh.threaded, fresh.inside, fresh.ends⟩

end calls

namespace WellFormed

theorem apart (wellFormed : list.WellFormed xs) (inside : i < list.capacity) :
    i ≠ head list.capacity ∧ i ≠ tail list.capacity ∧ i ≠ invalidIndex := by
  have fits := wellFormed.fits
  have bound := lt_invalid fits
  rw [head_eq fits, tail_eq fits]
  omega

theorem nodup (wellFormed : list.WellFormed xs) : xs.Nodup := wellFormed.threaded.nodup_cells

theorem removeNode (wellFormed : list.WellFormed xs) (inside : i < list.capacity) :
    (list.removeNode i).WellFormed (xs.erase i) := by
  obtain ⟨other, last, some⟩ := wellFormed.apart inside
  have ends := wellFormed.threaded.remove_ends other last some
  exact ⟨wellFormed.fits, wellFormed.threaded.remove other last some,
    fun j member => wellFormed.inside j (List.mem_of_mem_erase member),
    ends.1.trans wellFormed.ends.1, ends.2.trans wellFormed.ends.2⟩

theorem addNodeToFront (wellFormed : list.WellFormed xs) (inside : i < list.capacity) (fresh : i ∉ xs) :
    (list.addNodeToFront i).WellFormed (i :: xs) := by
  obtain ⟨other, last, some⟩ := wellFormed.apart inside
  have outside := Links.Threaded.not_mem_cells other last fresh
  have ends := wellFormed.threaded.linkFront_ends outside
  refine ⟨wellFormed.fits, wellFormed.threaded.linkFront outside some, fun j member => ?_,
    ends.1.trans wellFormed.ends.1, ends.2.trans wellFormed.ends.2⟩
  rcases List.mem_cons.mp member with rfl | member
  · exact inside
  · exact wellFormed.inside j member

theorem moveToFront (wellFormed : list.WellFormed xs) (inside : i < list.capacity) :
    (list.moveToFront i).2.WellFormed (i :: xs.erase i) := by
  rw [ListArray.moveToFront, if_neg (Nat.not_le.mpr inside)]
  exact (wellFormed.removeNode inside).addNodeToFront inside wellFormed.nodup.not_mem_erase

theorem removeFromIndex (wellFormed : list.WellFormed xs) (inside : i < list.capacity) :
    (list.removeFromIndex i).2.WellFormed (xs.erase i) := by
  have removed := wellFormed.removeNode inside
  rw [ListArray.removeFromIndex, if_neg (Nat.not_le.mpr inside)]
  exact ⟨removed.fits, removed.threaded, removed.inside, removed.ends⟩

/-- `inList` for every node of the array, the sentinels included. -/
theorem inList_iff (wellFormed : list.WellFormed xs) (inside : i < list.capacity + 2) :
    list.inList i = true ↔ i ∈ xs := by
  have bound := lt_invalid wellFormed.fits
  have value : list.inList i = true ↔ list.links.next i ≠ invalidIndex ∧ list.links.prev i ≠ invalidIndex := by
    simp [ListArray.inList]
  rw [value]
  by_cases other : i = head list.capacity
  · subst other
    refine ⟨fun linked => absurd wellFormed.ends.1 linked.2, fun member => ?_⟩
    exact absurd rfl (wellFormed.threaded.ne_head member)
  by_cases last : i = tail list.capacity
  · subst last
    refine ⟨fun linked => absurd wellFormed.ends.2 linked.1, fun member => ?_⟩
    exact absurd rfl (wellFormed.threaded.ne_tail member)
  exact wellFormed.threaded.mem_iff other last (by omega)

end WellFormed

/-- The nodes that `f` leads to from `a`, up to `b`. -/
def Path (f : ℕ → ℕ) : ℕ → List ℕ → ℕ → Prop
  | a, [], b => f a = b
  | a, x :: xs, b => f a = x ∧ Path f x xs b

instance decidablePath (f : ℕ → ℕ) : ∀ a xs b, Decidable (Path f a xs b)
  | a, [], b => inferInstanceAs (Decidable (f a = b))
  | a, x :: xs, b =>
    have := decidablePath f x xs b
    inferInstanceAs (Decidable (f a = x ∧ Path f x xs b))

theorem path_concat {f : ℕ → ℕ} {a b x : ℕ} {xs : List ℕ} :
    Path f a (xs ++ [x]) b ↔ Path f a xs x ∧ f x = b := by
  induction xs generalizing a with
  | nil => exact Iff.rfl
  | cons y xs ih =>
    rw [List.cons_append, Path, Path, ih]
    exact and_assoc.symm

theorem path_next {l : Links ℕ} {a b : ℕ} {xs : List ℕ} (seg : l.Seg a xs b) : Path l.next a xs b := by
  induction xs generalizing a with
  | nil => exact seg.1
  | cons x xs ih => exact ⟨seg.1.1, ih seg.2⟩

theorem path_prev {l : Links ℕ} {a b : ℕ} {xs : List ℕ} (seg : l.Seg a xs b) : Path l.prev b xs.reverse a := by
  induction xs generalizing a with
  | nil => exact seg.2
  | cons x xs ih =>
    rw [List.reverse_cons, path_concat]
    exact ⟨ih seg.2, seg.1.2⟩

/-- The list that both directions walk through, and that `inList` tells membership of. -/
structure IsList (list : ListArray α) (xs : List ℕ) : Prop where
  forward : Path list.links.next (head list.capacity) xs (tail list.capacity)
  backward : Path list.links.prev (tail list.capacity) xs.reverse (head list.capacity)
  nodup : xs.Nodup
  inList : ∀ i < list.capacity + 2, list.inList i = true ↔ i ∈ xs

theorem WellFormed.isList (wellFormed : list.WellFormed xs) : list.IsList xs :=
  ⟨path_next wellFormed.threaded.seg, path_prev wellFormed.threaded.seg, wellFormed.nodup,
    fun _ inside => wellFormed.inList_iff inside⟩

/-- The index that names a node, or none. -/
def encode (capacity : ℕ) : ListIndex → ℕ
  | .head => head capacity
  | .node i => i
  | .invalid => invalidIndex

private theorem prev_eq_encode {l : Links ℕ} {a b : ℕ} (seg : l.Seg a xs b) {before : ListIndex}
    (start : encode capacity before = a) (member : i ∈ xs) :
    l.prev i = encode capacity (Gbp.ListArray.prevIn before xs i) := by
  induction xs generalizing a before with
  | nil => cases member
  | cons x xs ih =>
    obtain ⟨⟨_, back⟩, rest⟩ := seg
    rw [Gbp.ListArray.prevIn]
    split_ifs with here
    · rw [← here, back, start]
    · exact ih rest rfl ((List.mem_cons.mp member).resolve_left (Ne.symm here))

/-- `getPrevNodeIndex` answers as on the sequence of the nodes. -/
theorem WellFormed.getPrevNodeIndex_eq (wellFormed : list.WellFormed xs) (inside : i < list.capacity) :
    list.getPrevNodeIndex i = encode list.capacity (Gbp.ListArray.prevIn .head xs i) := by
  obtain ⟨other, last, some⟩ := wellFormed.apart inside
  rw [getPrevNodeIndex, if_neg (not_or.mpr ⟨some, Nat.not_le.mpr inside⟩)]
  by_cases member : i ∈ xs
  · exact prev_eq_encode wellFormed.threaded.seg rfl member
  · rw [(Gbp.ListArray.prevIn_eq_invalid_iff (by simp)).mpr member]
    exact (wellFormed.threaded.outside i (Links.Threaded.not_mem_cells other last member) some).2

/-- `GetTail` answers as on the sequence of the nodes. -/
theorem WellFormed.getTail_eq (wellFormed : list.WellFormed xs) (val : ℕ → ℕ) :
    list.getTail = encode list.capacity (Gbp.ListArray.getTail ⟨list.capacity, xs, val⟩) := by
  have seg := wellFormed.threaded.seg
  unfold getTail Gbp.ListArray.getTail
  cases xs using List.reverseRecOn with
  | nil => exact seg.2
  | append_singleton xs x =>
    rw [List.getLast?_concat]
    exact (Links.seg_concat.mp seg).2.2

end ListArray

/-- A call that relinks nodes. -/
inductive ListCall
  | moveToFront (i : ℕ)
  | removeFromIndex (i : ℕ)
  | clean
deriving DecidableEq, Repr

namespace ListCall

/-- The call on the list with its index fields. -/
def relink {α : Type} [Inhabited α] (list : ListArray α) : ListCall → ListArray α
  | moveToFront i => (list.moveToFront i).2
  | removeFromIndex i => (list.removeFromIndex i).2
  | clean => list.clean

/-- The call on the sequence of nodes: move to the front, remove if present, empty. -/
def onNodes (list : Gbp.ListArray) : ListCall → Gbp.ListArray
  | moveToFront i => (list.moveToFront i).2
  | removeFromIndex i => list.removeFromIndex i
  | clean => list.clean

end ListCall

variable {α : Type} [Inhabited α] {list : ListArray α}

/-- Every call does with the fields what it does with the sequence. -/
theorem ListCall.refines {nodes : Gbp.ListArray} (wellFormed : list.WellFormed nodes.nodes)
    (same : list.capacity = nodes.capacity) (call : ListCall) :
    (call.relink list).WellFormed (call.onNodes nodes).nodes ∧
      (call.relink list).capacity = (call.onNodes nodes).capacity := by
  cases call with
  | moveToFront i =>
    simp only [relink, onNodes, Gbp.ListArray.moveToFront]
    split_ifs with outside
    · rw [ListArray.moveToFront, if_pos (same.symm ▸ outside)]
      exact ⟨wellFormed, same⟩
    · have inside : i < list.capacity := by omega
      refine ⟨wellFormed.moveToFront inside, ?_⟩
      rw [ListArray.moveToFront, if_neg (Nat.not_le.mpr inside)]
      exact same
  | removeFromIndex i =>
    simp only [relink, onNodes, Gbp.ListArray.removeFromIndex]
    split_ifs with outside
    · rw [ListArray.removeFromIndex, if_pos (same.symm ▸ outside)]
      exact ⟨wellFormed, same⟩
    · have inside : i < list.capacity := by omega
      refine ⟨wellFormed.removeFromIndex inside, ?_⟩
      rw [ListArray.removeFromIndex, if_neg (Nat.not_le.mpr inside)]
      exact same
  | clean => exact ⟨wellFormed.clean, same⟩

theorem refines_run {nodes : Gbp.ListArray} (wellFormed : list.WellFormed nodes.nodes)
    (same : list.capacity = nodes.capacity) (calls : List ListCall) :
    (calls.foldl ListCall.relink list).WellFormed (calls.foldl ListCall.onNodes nodes).nodes := by
  induction calls generalizing list nodes with
  | nil => exact wellFormed
  | cons call calls ih =>
    obtain ⟨next, capacity⟩ := call.refines wellFormed same
    exact ih next capacity

/-- Every run keeps a doubly linked list of the nodes that the calls leave in the sequence, as long as the
sentinels have indices of their own. -/
theorem list_array_runs {capacity : ℕ} (fits : capacity < indexRange - 2) (calls : List ListCall) :
    (calls.foldl ListCall.relink (.new capacity : ListArray α)).IsList
      (calls.foldl ListCall.onNodes (.new capacity)).nodes :=
  (refines_run (ListArray.wellFormed_new fits) rfl calls).isList

/-- Three frames, one of them moved twice and one removed. -/
theorem list_array_runs_threeFrames :
    ([.moveToFront 0, .moveToFront 1, .moveToFront 2, .moveToFront 0, .removeFromIndex 1].foldl ListCall.relink
      (.new 3 : ListArray ℕ)).IsList ([.moveToFront 0, .moveToFront 1, .moveToFront 2, .moveToFront 0,
        .removeFromIndex 1].foldl ListCall.onNodes (.new 3)).nodes :=
  list_array_runs (by decide) _

/-- With `INVALID_INDEX` for the index of its tail, a list does not find the node it has just linked. -/
theorem tail_index_invalid : ¬ ∀ (capacity : ℕ) (calls : List ListCall),
    (calls.foldl ListCall.relink (.new capacity : ListArray ℕ)).IsList
      (calls.foldl ListCall.onNodes (.new capacity)).nodes := by
  intro always
  have linked := (always (2 ^ 32 - 2) [.moveToFront 0]).inList 0 (by decide)
  exact absurd (linked.mpr (by decide)) (by decide)

end Indexed

end Gbp
