import GraphBufferPool.Replacer.IndexedList
import GraphBufferPool.Replacer.Methods

/-! # The queue replacers in memory

`LRUReplacer` and `FIFOReplacer` as nodes on the heap between the sentinels `head_` and `tail_`, and their second
versions on a `ListArray`, with every store to a `prev` or `next` field. A node on the heap is named by its
frame: `map_` has one for each, and a node is deleted when its frame leaves `map_`.
-/

namespace Gbp

open Fuel

/-- What a `ListNode*` points to. -/
inductive NodePtr
  | null
  | head
  | tail
  | node (frame : ℕ)
deriving DecidableEq, Repr

/-- The sentinels as the constructors link them; no other node has a neighbour yet. -/
def emptyLinks : Links NodePtr where
  prev p := if p = .tail then .head else .null
  next p := if p = .head then .tail else .null

/-- The search of a `Victim` from the node `toEvict`, moving by `back`. `frame` tells the frame of a node, and none at the
head. -/
def searchNodes {P : Type} (frame : P → Except Stop (Option ℕ))
    (test : PageTable → ℕ → Except Stop (Bool × PageTable)) (back : P → P) :
    ℕ → PageTable → P → Except Stop (Option ℕ × PageTable)
  | 0, pt, toEvict => do
    match ← frame toEvict with
    | none => return (none, pt)
    | some _ => throw .outOfFuel
  | fuel + 1, pt, toEvict => do
    match ← frame toEvict with
    | none => return (none, pt)
    | some i =>
      let (taken, pt) ← test pt i
      if taken then return (some i, pt)
      else searchNodes frame test back fuel pt (back toEvict)

/-- The frame of a node on the heap. -/
def NodePtr.frame : NodePtr → Except Stop (Option ℕ)
  | head => .ok none
  | node i => .ok (some i)
  | null | tail => .error .nullNode

/-- The frame that an index names; `pool_` ends at the capacity. -/
def Indexed.ListArray.frame (capacity i : ℕ) : Except Stop (Option ℕ) :=
  if i = head capacity then .ok none else if capacity ≤ i then .error .badIndex else .ok (some i)

/-- What the `Victim`s do with a list of nodes: walk through it from the tail up to a frame that they can lock, and
unlink a frame. -/
class NodeQueue (S : Type) where
  walk : (PageTable → ℕ → Except Stop (Bool × PageTable)) → ℕ → S → PageTable →
    Except Stop (Option ℕ × PageTable)
  unlink : S → ℕ → S

section victims

variable {S : Type} [NodeQueue S]

/-- A single `Victim`. -/
def victimFrom (skipsPinned : Bool) (fuel : ℕ) (s : S) (pt : PageTable) :
    Except Stop (Option ℕ × S × PageTable) := do
  let (taken, table) ← NodeQueue.walk (PageTable.tryVictim skipsPinned) fuel s pt
  match taken with
  | none => return (none, s, table)
  | some i => return (some i, NodeQueue.unlink s i, table)

/-- A batch `Victim`, which starts from the tail again for each frame. -/
def victimsFrom (fuel : ℕ) : ℕ → S → PageTable → List ℕ → Except Stop (Bool × List ℕ × S × PageTable)
  | 0, s, pt, mpageIds => .ok (true, mpageIds, s, pt)
  | pageNum + 1, s, pt, mpageIds => do
    let (taken, table) ← NodeQueue.walk PageTable.lockClean fuel s pt
    match taken with
    | none => return (!mpageIds.isEmpty, mpageIds, s, table)
    | some i =>
      let (deleted, table) ← table.deleteMapping (table.ptes i).page
      check deleted
      victimsFrom fuel pageNum (NodeQueue.unlink s i) table (mpageIds ++ [i])

end victims

namespace Heap

/-- The fields of the nodes and of `head_` and `tail_`, and the frames in `map_`. -/
structure NodeMap where
  links : Links NodePtr
  map : Finset ℕ

namespace NodeMap

/-- No nodes. -/
def new : NodeMap := ⟨emptyLinks, ∅⟩

/-- A new node behind `head_`, unless the frame has one. -/
def insert (nodes : NodeMap) (value : ℕ) : Bool × NodeMap :=
  if value ∈ nodes.map then (false, nodes)
  else (true, ⟨nodes.links.linkAfter .head (.node value), Insert.insert value nodes.map⟩)

/-- The node is unlinked and deleted. -/
def remove (nodes : NodeMap) (value : ℕ) : NodeMap :=
  ⟨nodes.links.unlink (.node value), nodes.map.erase value⟩

/-- `Erase`. -/
def erase (nodes : NodeMap) (value : ℕ) : Bool × NodeMap :=
  if value ∈ nodes.map then (true, nodes.remove value) else (false, nodes)

instance : NodeQueue NodeMap where
  walk test fuel nodes pt := searchNodes NodePtr.frame test nodes.links.prev fuel pt (nodes.links.prev .tail)
  unlink := remove

end NodeMap

/-- `LRUReplacer`. -/
structure LRUReplacer where
  nodes : NodeMap

namespace LRUReplacer

/-- `Insert`. -/
def insert (r : LRUReplacer) (value : ℕ) : Bool × LRUReplacer := (r.nodes.insert value).map id .mk

/-- `Promote`: the node is unlinked and linked again behind `head_`. -/
def promote (r : LRUReplacer) (value : ℕ) : Bool × LRUReplacer :=
  if value ∈ r.nodes.map then
    (true, ⟨(r.nodes.links.unlink (.node value)).linkAfter .head (.node value), r.nodes.map⟩)
  else (false, r)

/-- `Victim`. -/
def victim (fuel : ℕ) (r : LRUReplacer) (pt : PageTable) :
    Except Stop (Option ℕ × LRUReplacer × PageTable) := do
  let (taken, nodes, table) ← victimFrom true fuel r.nodes pt
  return (taken, ⟨nodes⟩, table)

/-- The batch `Victim`: `tail_.prev = victim->prev; victim->prev->next = &tail_`. -/
def victims (fuel : ℕ) :
    ℕ → LRUReplacer → PageTable → List ℕ → Except Stop (Bool × List ℕ × LRUReplacer × PageTable)
  | 0, r, pt, mpageIds => .ok (true, mpageIds, r, pt)
  | pageNum + 1, r, pt, mpageIds => do
    let (taken, table) ← NodeQueue.walk PageTable.lockClean fuel r.nodes pt
    match taken with
    | none => return (false, mpageIds, r, table)
    | some i =>
      let (_, table) ← table.deleteMapping (table.ptes i).page
      let before := r.nodes.links.prev (.node i)
      let links := (r.nodes.links.setPrev .tail before).setNext before .tail
      victims fuel pageNum ⟨links, r.nodes.map.erase i⟩ table (mpageIds ++ [i])

/-- `Erase`. -/
def erase (r : LRUReplacer) (value : ℕ) : Bool × LRUReplacer := (r.nodes.erase value).map id .mk

instance : Policy LRUReplacer where
  Constructed _ r := r = ⟨.new⟩
  insert r m := .ok (r.insert m)
  promote r m := .ok (r.promote m)
  victim := victim

instance : FullPolicy LRUReplacer where
  erase r value := .ok (r.erase value)
  victims fuel r pt mpageIds pageNum := victims fuel pageNum r pt mpageIds

end LRUReplacer

/-- `FIFOReplacer`. -/
structure FIFOReplacer where
  nodes : NodeMap

namespace FIFOReplacer

/-- `Insert`. -/
def insert (r : FIFOReplacer) (value : ℕ) : Bool × FIFOReplacer := (r.nodes.insert value).map id .mk

/-- `Promote`. -/
def promote (r : FIFOReplacer) (_value : ℕ) : Bool × FIFOReplacer := (true, r)

/-- `Victim`. -/
def victim (fuel : ℕ) (r : FIFOReplacer) (pt : PageTable) :
    Except Stop (Option ℕ × FIFOReplacer × PageTable) := do
  let (taken, nodes, table) ← victimFrom false fuel r.nodes pt
  return (taken, ⟨nodes⟩, table)

/-- The batch `Victim`. -/
def victims (fuel pageNum : ℕ) (r : FIFOReplacer) (pt : PageTable) (mpageIds : List ℕ) :
    Except Stop (Bool × List ℕ × FIFOReplacer × PageTable) := do
  let (result, mpageIds, nodes, table) ← victimsFrom fuel pageNum r.nodes pt mpageIds
  return (result, mpageIds, ⟨nodes⟩, table)

/-- `Erase`. -/
def erase (r : FIFOReplacer) (value : ℕ) : Bool × FIFOReplacer := (r.nodes.erase value).map id .mk

instance : Policy FIFOReplacer where
  Constructed _ r := r = ⟨.new⟩
  insert r m := .ok (r.insert m)
  promote r m := .ok (r.promote m)
  victim := victim

instance : FullPolicy FIFOReplacer where
  erase r value := .ok (r.erase value)
  victims fuel r pt mpageIds pageNum := victims fuel pageNum r pt mpageIds

end FIFOReplacer

instance : NodeQueue (Indexed.ListArray ℕ) where
  walk test fuel list pt :=
    searchNodes (Indexed.ListArray.frame list.capacity) test list.getPrevNodeIndex fuel pt list.getTail
  unlink list i := (list.removeFromIndex i).2

/-- `LRUReplacer_v2`. -/
structure LRUReplacer_v2 where
  list : Indexed.ListArray ℕ

namespace LRUReplacer_v2

/-- `Insert`. -/
def insert (r : LRUReplacer_v2) (value : ℕ) : Except Stop (Bool × LRUReplacer_v2) := do
  if r.list.capacity ≤ value then throw .badIndex
  let (moved, list) := (r.list.setValue value 0).moveToFront value
  check moved
  return (true, ⟨list⟩)

/-- `Promote`. -/
def promote (r : LRUReplacer_v2) (value : ℕ) : Except Stop (Bool × LRUReplacer_v2) := do
  let (moved, list) := r.list.moveToFront value
  check moved
  return (true, ⟨list⟩)

/-- `Victim`. -/
def victim (fuel : ℕ) (r : LRUReplacer_v2) (pt : PageTable) :
    Except Stop (Option ℕ × LRUReplacer_v2 × PageTable) := do
  let (taken, list, table) ← victimFrom true fuel r.list pt
  return (taken, ⟨list⟩, table)

/-- `Erase`. -/
def erase (r : LRUReplacer_v2) (value : ℕ) : Bool × LRUReplacer_v2 := (true, ⟨(r.list.removeFromIndex value).2⟩)

instance : Policy LRUReplacer_v2 where
  Constructed capacity r := r = ⟨.new capacity⟩
  insert := insert
  promote := promote
  victim := victim

/-- The batch `Victim` is not implemented. -/
instance : FullPolicy LRUReplacer_v2 where
  erase r value := .ok (r.erase value)
  victims _ _ _ _ _ := .error .assertion

end LRUReplacer_v2

/-- `FIFOReplacer_v2`. -/
structure FIFOReplacer_v2 where
  list : Indexed.ListArray ℕ

namespace FIFOReplacer_v2

/-- `Insert`; `nodes_` ends behind the sentinels. -/
def insert (r : FIFOReplacer_v2) (value : ℕ) : Except Stop (Bool × FIFOReplacer_v2) := do
  if r.list.capacity + 2 ≤ value then throw .badIndex
  if r.list.inList value then return (false, r)
  let (moved, list) := r.list.moveToFront value
  check moved
  return (true, ⟨list⟩)

/-- `Promote`. -/
def promote (r : FIFOReplacer_v2) (_value : ℕ) : Bool × FIFOReplacer_v2 := (true, r)

/-- `Victim`. -/
def victim (fuel : ℕ) (r : FIFOReplacer_v2) (pt : PageTable) :
    Except Stop (Option ℕ × FIFOReplacer_v2 × PageTable) := do
  let (taken, list, table) ← victimFrom false fuel r.list pt
  return (taken, ⟨list⟩, table)

/-- The batch `Victim`. -/
def victims (fuel pageNum : ℕ) (r : FIFOReplacer_v2) (pt : PageTable) (mpageIds : List ℕ) :
    Except Stop (Bool × List ℕ × FIFOReplacer_v2 × PageTable) := do
  let (result, mpageIds, list, table) ← victimsFrom fuel pageNum r.list pt mpageIds
  return (result, mpageIds, ⟨list⟩, table)

/-- `Erase`. -/
def erase (r : FIFOReplacer_v2) (value : ℕ) : Bool × FIFOReplacer_v2 := (true, ⟨(r.list.removeFromIndex value).2⟩)

instance : Policy FIFOReplacer_v2 where
  Constructed capacity r := r = ⟨.new capacity⟩
  insert := insert
  promote r m := .ok (r.promote m)
  victim := victim

instance : FullPolicy FIFOReplacer_v2 where
  erase r value := .ok (r.erase value)
  victims fuel r pt mpageIds pageNum := victims fuel pageNum r pt mpageIds

end FIFOReplacer_v2

end Heap

end Gbp
