import GraphBufferPool.Replacer.Policy
import GraphBufferPool.Replacer.SieveRuns

/-! # The earlier SIEVE replacers

`SieveReplacer` links heap nodes and finds them through a hash map, `SieveReplacer_v2` has boolean marks
and tries to lock pinned frames as well. In consistent pools both make the moves of
`SieveReplacer_v3`.
-/

namespace Gbp

/-- `SieveReplacer`. `map_` has one node for each frame, so a node is named by its frame; `nodes` are
the linked ones from `head_` to `tail_`, `freq` is their field, and a null pointer is `none`. -/
structure SieveReplacer where
  nodes : List ℕ
  freq : ℕ → ℕ
  map : Finset ℕ
  pointer : Option ℕ

namespace SieveReplacer

/-- The constructor. -/
def new : SieveReplacer := ⟨[], fun _ => 0, ∅, none⟩

/-- `Insert`. -/
def insert (r : SieveReplacer) (value : ℕ) : Bool × SieveReplacer :=
  if value ∈ r.map then (false, r)
  else (true, { r with
    map := Insert.insert value r.map
    freq := Function.update r.freq value 0
    nodes := value :: r.nodes })

/-- `Promote`. -/
def promote (r : SieveReplacer) (value : ℕ) : Bool × SieveReplacer :=
  if value ∈ r.map then (true, { r with freq := Function.update r.freq value 1 }) else (false, r)

/-- `target->prev`. -/
def prev (r : SieveReplacer) (i : ℕ) : Option ℕ := prevNode none r.nodes i

/-- `target->prev == nullptr ? tail_ : target->prev`. -/
def sweepFrom (r : SieveReplacer) (i : ℕ) : Option ℕ :=
  match r.prev i with
  | none => r.nodes.getLast?
  | some j => some j

/-- The inner loop of `Victim`. The fuel bounds the values of `freq`. -/
def skipVisited : ℕ → SieveReplacer → Option ℕ → Except Stop (ℕ × SieveReplacer)
  | _, _, none => .error .nullNode
  | fuel, r, some i =>
    if r.freq i = 0 then .ok (i, r)
    else
      match fuel with
      | 0 => .error .outOfFuel
      | fuel + 1 =>
        let lowered := { r with freq := Function.update r.freq i (r.freq i - 1) }
        skipVisited fuel lowered (lowered.sweepFrom i)

/-- The outer loop of `Victim` with `count` tries left. -/
def victimLoop (pt : PageTable) :
    ℕ → SieveReplacer → Option ℕ → Except Stop (Option ℕ × SieveReplacer × PageTable)
  | 0, r, _ => .ok (none, r, pt)
  | count + 1, r, target => do
    let (i, r) ← skipVisited ((r.nodes.map r.freq).sum + 1) r target
    let (taken, table) ← pt.lockVictim i
    if taken then return (some i, r, table)
    else victimLoop table count r (r.sweepFrom i)

/-- `Victim`. -/
def victim (r : SieveReplacer) (pt : PageTable) :
    Except Stop (Option ℕ × SieveReplacer × PageTable) := do
  match r.pointer.or r.nodes.getLast? with
  | none => return (none, r, pt)
  | some target =>
    let (taken, r, table) ← victimLoop pt (r.map.card * 3) r (some target)
    match taken with
    | none => return (none, r, table)
    | some i =>
      return (some i, { r with
        pointer := r.prev i
        nodes := r.nodes.erase i
        map := r.map.erase i }, table)

instance : Policy SieveReplacer where
  Constructed _ r := r = new
  insert r m := .ok (r.insert m)
  promote r m := .ok (r.promote m)
  victim _ := victim

end SieveReplacer

/-- `SieveReplacer_v2`; a mark is 1 where the source has `true`. -/
structure SieveReplacer_v2 where
  list : ListArray
  pointer : ListIndex

namespace SieveReplacer_v2

/-- The constructor. -/
def new (capacity : ℕ) : SieveReplacer_v2 := ⟨.new capacity, .head⟩

/-- `Insert`; `nodes_` ends behind the sentinels. -/
def insert (r : SieveReplacer_v2) (value : ℕ) : Except Stop (Bool × SieveReplacer_v2) := do
  if r.list.capacity + 2 ≤ value then throw .badIndex
  if r.list.inList value then return (false, r)
  if r.list.capacity ≤ value then throw .badIndex
  let (moved, list) := (r.list.setValue value 0).moveToFront value
  check moved
  return (true, { r with list := list })

/-- `Promote`. -/
def promote (r : SieveReplacer_v2) (value : ℕ) : Except Stop (Bool × SieveReplacer_v2) := do
  if r.list.capacity + 2 ≤ value then throw .badIndex
  if r.list.inList value then
    if r.list.capacity ≤ value then throw .badIndex
    return (true, { r with list := r.list.setValue value 1 })
  return (false, r)

/-- The inner loop of `Victim`. The fuel bounds the marks. -/
def skipVisited : ℕ → ListArray → ListIndex → Except Stop (ℕ × ListArray)
  | fuel, list, .node i =>
    if list.val i = 0 then .ok (i, list)
    else
      match fuel with
      | 0 => .error .outOfFuel
      | fuel + 1 =>
        let cleared := list.setValue i 0
        skipVisited fuel cleared (cleared.sweepFrom i)
  | _, _, _ => .error .badIndex

/-- The outer loop of `Victim` with `count` tries left. -/
def victimLoop (pt : PageTable) : ℕ → ListArray → ListIndex → Except Stop (ℕ × ListArray × PageTable)
  | 0, _, _ => .error .assertion
  | count + 1, list, toEvict => do
    let (i, list) ← skipVisited (list.marks + 1) list toEvict
    let (taken, table) ← pt.lockVictim i
    if taken then return (i, list, table)
    else victimLoop table count list (list.sweepFrom i)

/-- `Victim`. -/
def victim (r : SieveReplacer_v2) (pt : PageTable) :
    Except Stop (Option ℕ × SieveReplacer_v2 × PageTable) := do
  let toEvict := if r.pointer = .head then r.list.getTail else r.pointer
  if toEvict = .head then throw .assertion
  let (i, list, table) ← victimLoop pt (r.list.capacity * 2) r.list toEvict
  return (some i, ⟨list.removeFromIndex i, list.getPrevNodeIndex i⟩, table)

instance : Policy SieveReplacer_v2 where
  Constructed capacity r := r = new capacity
  insert := insert
  promote := promote
  victim _ := victim

end SieveReplacer_v2

instance : Policy SieveReplacer_v3 where
  Constructed capacity r := r = .new capacity
  insert := SieveReplacer_v3.insert
  promote := SieveReplacer_v3.promote
  victim _ := SieveReplacer_v3.victim

end Gbp
