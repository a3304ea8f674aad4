import GraphBufferPool.Replacer.Nodes

/-! # Nodes in order

A replacer's nodes lie between its sentinels in an order that both kinds of pointers agree on. Every store of
`Insert`, `Promote`, `Erase` and `Victim` is one of three moves of that order, and the walk of a
`Victim` from the tail is a search through it.
-/

namespace Gbp

open Fuel

/-- The nodes of these frames lie between the sentinels, from the head, and no frame has two. -/
structure Linked (links : Links NodePtr) (order : List ℕ) : Prop where
  seg : links.Seg .head (order.map .node) .tail
  nodup : order.Nodup

theorem linked_empty : Linked emptyLinks [] := ⟨⟨rfl, rfl⟩, .nil⟩

variable {links : Links NodePtr} {order xs ys : List ℕ} {m : ℕ}

theorem nodup_cells (distinct : order.Nodup) :
    (NodePtr.head :: (order.map NodePtr.node ++ [.tail])).Nodup := by
  have nodes := distinct.map fun _ _ same => NodePtr.node.inj same
  simp [List.nodup_append, nodes]

namespace Linked

/-- A frame enters at the front. -/
theorem insert (linked : Linked links order) (fresh : m ∉ order) :
    Linked (links.linkAfter .head (.node m)) (m :: order) :=
  ⟨linked.seg.linkAfter (nodup_cells linked.nodup) (by simpa using fresh), List.nodup_cons.mpr ⟨fresh, linked.nodup⟩⟩

/-- A frame leaves. -/
theorem erase (linked : Linked links order) (member : m ∈ order) :
    Linked (links.unlink (.node m)) (order.erase m) := by
  obtain ⟨before, after, fresh, split, erased⟩ := List.exists_erase_eq member
  refine ⟨?_, linked.nodup.erase m⟩
  have seg := linked.seg
  have cells := nodup_cells linked.nodup
  rw [split, List.map_append, List.map_cons] at seg cells
  rw [erased, List.map_append]
  exact seg.unlink cells

/-- `Promote` brings a frame to the front. -/
theorem promote (linked : Linked links order) (member : m ∈ order) :
    Linked ((links.unlink (.node m)).linkAfter .head (.node m)) (m :: order.erase m) :=
  (linked.erase member).insert linked.nodup.not_mem_erase

/-- The frame `m` is taken out with all behind it. -/
theorem cut (linked : Linked links (xs ++ m :: ys)) : Linked
    ((links.setPrev .tail (links.prev (.node m))).setNext (links.prev (.node m)) .tail) xs := by
  have seg := linked.seg
  have cells := nodup_cells linked.nodup
  rw [List.map_append, List.map_cons] at seg cells
  exact ⟨seg.cut cells, (List.nodup_append.mp linked.nodup).1⟩

/-- The pointers leave no choice. -/
theorem unique (first : Linked links xs) (second : Linked links ys) : xs = ys := by
  have steps {a : NodePtr} {xs ys : List ℕ} (left : links.Seg a (xs.map .node) .tail)
      (right : links.Seg a (ys.map .node) .tail) : xs = ys := by
    induction xs generalizing a ys with
    | nil =>
      cases ys with
      | nil => rfl
      | cons y ys => cases left.1.symm.trans right.1.1
    | cons x xs ih =>
      cases ys with
      | nil => cases left.1.1.symm.trans right.1
      | cons y ys =>
        have same := left.1.1.symm.trans right.1.1
        cases same
        rw [ih left.2 right.2]
  exact steps first.seg second.seg

end Linked

/-- The walk towards the head through the nodes of an order is a search. -/
theorem searchNodes_eq {P : Type} {l : Links P} {head b : P} {node : ℕ → P} {frame : P → Except Stop (Option ℕ)}
    {test : PageTable → ℕ → Except Stop (Bool × PageTable)} {back : P → P} (seg : l.Seg head (order.map node) b)
    (stops : frame head = .ok none) (reads : ∀ m ∈ order, frame (node m) = .ok (some m))
    (walks : ∀ m ∈ order, back (node m) = l.prev (node m)) (pt : PageTable) {fuel : ℕ}
    (enough : order.length ≤ fuel) :
    searchNodes frame test back fuel pt (l.prev b) = pt.searchWith test order.reverse := by
  induction order using List.reverseRecOn generalizing b fuel pt with
  | nil =>
    rw [seg.2]
    cases fuel <;> rw [searchNodes, stops] <;> rfl
  | append_singleton xs m ih =>
    rw [List.map_append, List.map_cons, List.map_nil, Links.seg_concat] at seg
    obtain ⟨rest, _, last⟩ := seg
    have more : xs.length + 1 ≤ fuel := by simpa using enough
    obtain ⟨fuel, rfl⟩ : ∃ less, fuel = less + 1 := ⟨fuel - 1, by omega⟩
    have reads' : ∀ k ∈ xs, frame (node k) = .ok (some k) := fun k member => reads k (List.mem_append_left _ member)
    have walks' : ∀ k ∈ xs, back (node k) = l.prev (node k) := fun k member => walks k (List.mem_append_left _ member)
    have later (table : PageTable) := ih rest reads' walks' table (show xs.length ≤ fuel by omega)
    rw [last, List.reverse_append, List.reverse_singleton, List.singleton_append, searchNodes,
      PageTable.searchWith]
    simp only [reads m (by simp), walks m (by simp), later, ok_bind]

/-- A list of nodes that holds some of `capacity` frames in an order, from the head, and does with them what it
should. -/
class LawfulNodeQueue (S : Type) [NodeQueue S] where
  Holds : ℕ → S → List ℕ → Prop
  nodup : ∀ capacity s order, Holds capacity s order → order.Nodup
  walk : ∀ capacity s order (test : PageTable → ℕ → Except Stop (Bool × PageTable)) fuel pt, Holds capacity s order →
    order.length ≤ fuel → NodeQueue.walk test fuel s pt = pt.searchWith test order.reverse
  unlink : ∀ capacity s order, Holds capacity s order → ∀ m ∈ order,
    Holds capacity (NodeQueue.unlink s m) (order.erase m)

namespace Heap

namespace NodeMap

/-- The nodes of the frames in `map_`, in this order. -/
structure Holds (nodes : NodeMap) (order : List ℕ) : Prop where
  linked : Linked nodes.links order
  map : ∀ m, m ∈ nodes.map ↔ m ∈ order

variable {nodes : NodeMap}

theorem holds_new : new.Holds [] := ⟨linked_empty, by simp [new]⟩

theorem Holds.insert (holds : nodes.Holds order) (fresh : m ∉ order) :
    ∃ nodes', nodes.insert m = (true, nodes') ∧ nodes'.Holds (m :: order) := by
  refine ⟨_, if_neg (fresh ∘ (holds.map m).mp), holds.linked.insert fresh, fun k => ?_⟩
  simp [holds.map]

theorem Holds.insert_tracked (holds : nodes.Holds order) (member : m ∈ order) :
    nodes.insert m = (false, nodes) := if_pos ((holds.map m).mpr member)

theorem Holds.remove (holds : nodes.Holds order) (member : m ∈ order) :
    (nodes.remove m).Holds (order.erase m) := by
  refine ⟨holds.linked.erase member, fun k => ?_⟩
  simp [NodeMap.remove, holds.map, holds.linked.nodup.mem_erase_iff]

theorem Holds.erase (holds : nodes.Holds order) (member : m ∈ order) :
    ∃ nodes', nodes.erase m = (true, nodes') ∧ nodes'.Holds (order.erase m) :=
  ⟨_, if_pos ((holds.map m).mpr member), holds.remove member⟩

instance : LawfulNodeQueue NodeMap where
  Holds _ := Holds
  nodup _ _ _ holds := holds.linked.nodup
  walk _ _ _ _ _ pt holds enough := searchNodes_eq holds.linked.seg rfl (fun _ _ => rfl) (fun _ _ => rfl) pt enough
  unlink _ _ _ holds _ member := holds.remove member

theorem lawful_holds (capacity : ℕ) (holds : nodes.Holds order) : LawfulNodeQueue.Holds capacity nodes order := holds

end NodeMap

end Heap

namespace Indexed.ListArray

/-- A list for so many frames with these linked. -/
structure Holds (list : ListArray ℕ) (capacity : ℕ) (order : List ℕ) : Prop where
  size : list.capacity = capacity
  wellFormed : list.WellFormed order

variable {list : ListArray ℕ} {capacity : ℕ}

theorem holds_new (fits : capacity < indexRange - 2) : (new capacity : ListArray ℕ).Holds capacity [] :=
  ⟨rfl, wellFormed_new fits⟩

namespace Holds

theorem inside (holds : list.Holds capacity order) (member : m ∈ order) : m < capacity :=
  holds.size ▸ holds.wellFormed.inside m member

theorem inList (holds : list.Holds capacity order) (within : m < capacity + 2) : list.inList m = true ↔ m ∈ order :=
  holds.wellFormed.inList_iff (holds.size.symm ▸ within)

/-- `moveToFront` links a frame in front of the others. -/
theorem moveToFront (holds : list.Holds capacity order) (inside : m < capacity) :
    ∃ list', list.moveToFront m = (true, list') ∧ list'.Holds capacity (m :: order.erase m) := by
  have moved := holds.wellFormed.moveToFront (holds.size.symm ▸ inside)
  have room : ¬ list.capacity ≤ m := Nat.not_le.mpr (holds.size.symm ▸ inside)
  rw [ListArray.moveToFront, if_neg room] at moved ⊢
  exact ⟨_, rfl, holds.size, moved⟩

theorem removeFromIndex (holds : list.Holds capacity order) (member : m ∈ order) :
    (list.removeFromIndex m).2.Holds capacity (order.erase m) := by
  have removed := holds.wellFormed.removeFromIndex (holds.wellFormed.inside m member)
  refine ⟨?_, removed⟩
  rw [ListArray.removeFromIndex, if_neg (Nat.not_le.mpr (holds.wellFormed.inside m member))]
  exact holds.size

theorem setValue (holds : list.Holds capacity order) (i value : ℕ) : (list.setValue i value).Holds capacity order :=
  ⟨holds.size, ⟨holds.wellFormed.fits, holds.wellFormed.threaded, holds.wellFormed.inside, holds.wellFormed.ends⟩⟩

end Holds

instance : LawfulNodeQueue (ListArray ℕ) where
  Holds capacity list := list.Holds capacity
  nodup _ _ _ holds := holds.wellFormed.nodup
  walk _ list order _ _ pt holds enough := by
    have apart (m : ℕ) (member : m ∈ order) := holds.wellFormed.apart (holds.wellFormed.inside m member)
    have room (m : ℕ) (member : m ∈ order) : ¬ list.capacity ≤ m :=
      Nat.not_le.mpr (holds.wellFormed.inside m member)
    have seg : list.links.Seg (head list.capacity) (order.map id) (tail list.capacity) :=
      (List.map_id order).symm ▸ holds.wellFormed.threaded.seg
    refine searchNodes_eq seg (if_pos rfl) (fun m member => ?_) (fun m member => ?_) pt enough
    · rw [id, frame, if_neg (apart m member).1, if_neg (room m member)]
    · exact if_neg (not_or.mpr ⟨(apart m member).2.2, room m member⟩)
  unlink _ _ _ holds _ member := holds.removeFromIndex member

theorem lawful_holds (holds : list.Holds capacity order) : LawfulNodeQueue.Holds capacity list order := holds

end Indexed.ListArray

end Gbp
