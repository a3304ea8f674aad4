import GraphBufferPool.Lib.Agreement
import GraphBufferPool.Replacer.IndexedList
import GraphBufferPool.Replacer.SieveBatch
import GraphBufferPool.Replacer.SieveVersions

/-! # The SIEVE replacers over indices

`SieveReplacer_v2` and `SieveReplacer_v3` as the source has them, with a hand and sweeps that are 32-bit indices into a
`ListArray`. As long as its sentinels have indices of their own, every call does what it does on the sequence
of the tracked frames, with the same answer, the same page table and the same failure.
-/

namespace Gbp.Indexed

open Fuel
open Gbp.SieveReplacer_v3 (attempt)

namespace ListArray

/-- The inner loop of a sweep: pass the frames with a value, which is lowered. `getValue` raises an exception past the
capacity. -/
def skip (lower : ℕ → ℕ) : ℕ → ListArray ℕ → ℕ → Except Stop (ℕ × ListArray ℕ)
  | fuel, list, toEvict =>
    if list.capacity ≤ toEvict then .error .badIndex
    else if list.val toEvict = 0 then .ok (toEvict, list)
    else
      match fuel with
      | 0 => .error .outOfFuel
      | fuel + 1 => skip lower fuel (list.setValue toEvict (lower (list.val toEvict))) (list.sweepFrom toEvict)

/-- Where a sweep with this hand starts. -/
def start (list : ListArray ℕ) (pointer : ℕ) : ℕ := if pointer = head list.capacity then list.getTail else pointer

/-- The values left on the nodes, which bound the rounds of a loop that lowers one in each. -/
def marks (list : ListArray ℕ) : ℕ := ((List.range list.capacity).map list.val).sum

end ListArray

/-- `SieveReplacer_v3`. -/
structure SieveReplacer_v3 where
  list : ListArray ℕ
  pointer : ℕ

namespace SieveReplacer_v3

/-- The constructor. -/
def new (capacity : ℕ) : SieveReplacer_v3 := ⟨.new capacity, ListArray.head capacity⟩

/-- `Insert`. -/
def insert (r : SieveReplacer_v3) (value : ℕ) : Except Stop (Bool × SieveReplacer_v3) := do
  if r.list.capacity ≤ value then throw .badIndex
  let (moved, list) := (r.list.setValue value 0).moveToFront value
  check moved
  return (true, { r with list := list })

/-- `Promote`. -/
def promote (r : SieveReplacer_v3) (value : ℕ) : Except Stop (Bool × SieveReplacer_v3) := do
  if r.list.capacity ≤ value then throw .badIndex
  return (true, { r with list := r.list.setValue value 1 })

/-- The inner loop of `Victim`: `fetch_sub(1)`. -/
def skipMarked (list : ListArray ℕ) : ℕ → Except Stop (ℕ × ListArray ℕ) := ListArray.skip (· - 1) (list.marks + 1) list

/-- The outer loop of `Victim` with `count` tries left: the frame it breaks out with. -/
def victimLoop : PageTable → ℕ → ListArray ℕ → ℕ → Except Stop (ℕ × ListArray ℕ × PageTable)
  | _, 0, _, _ => .error .assertion
  | pt, count + 1, list, toEvict => do
    let (i, list) ← skipMarked list toEvict
    let (taken, table) ← attempt pt i
    if taken then return (i, list, table)
    else victimLoop table count list (list.sweepFrom i)

/-- `Victim`. -/
def victim (r : SieveReplacer_v3) (pt : PageTable) : Except Stop (Option ℕ × SieveReplacer_v3 × PageTable) := do
  let toEvict := r.list.start r.pointer
  if toEvict = ListArray.head r.list.capacity then throw .assertion
  let (i, list, table) ← victimLoop pt (r.list.capacity * 2) r.list toEvict
  return (some i, ⟨(list.removeFromIndex i).2, list.getPrevNodeIndex i⟩, table)

/-- The inner loop of `Replace`: a value of 1 is cleared, a higher one stays. -/
def skipReplaced : ℕ → ListArray ℕ → ℕ → Except Stop (ℕ × ListArray ℕ) :=
  ListArray.skip fun value => if value = 1 then 0 else value

/-- The outer loop of `Replace` with `count` tries left. -/
def replaceLoop (fuel : ℕ) : PageTable → ℕ → ListArray ℕ → ℕ → Except Stop (ℕ × ListArray ℕ × PageTable)
  | _, 0, _, _ => .error .assertion
  | pt, count + 1, list, toEvict => do
    let (i, list) ← skipReplaced fuel list toEvict
    let (taken, table) ← attempt pt i
    if taken then return (i, list, table)
    else replaceLoop fuel table count list (list.sweepFrom i)

/-- `Replace`. -/
def replace (fuel : ℕ) (r : SieveReplacer_v3) (pt : PageTable) :
    Except Stop (Option ℕ × SieveReplacer_v3 × PageTable) := do
  let toEvict := r.list.start r.pointer
  if toEvict = ListArray.head r.list.capacity then throw .assertion
  let (i, list, table) ← replaceLoop fuel pt (r.list.capacity * 2) r.list toEvict
  let (moved, marked) := (list.setValue i 2).moveToFront i
  check moved
  return (some i, ⟨marked, list.getPrevNodeIndex i⟩, table)

/-- The sweep for one frame of a batch, with `count` tries left: the frame it takes, if any. -/
def batchLoop : ℕ → PageTable → ListArray ℕ → ℕ → Except Stop (Option ℕ × ListArray ℕ × PageTable)
  | 0, pt, list, _ => .ok (none, list, pt)
  | count + 1, pt, list, toEvict => do
    let (i, list) ← skipMarked list toEvict
    if (pt.ptes i).refCount ≠ 0 ∨ (pt.ptes i).dirty = true then batchLoop count pt list (list.sweepFrom i)
    else
      let (taken, table) ← pt.lockClean i
      if taken then
        let (deleted, table) ← table.deleteMapping (pt.ptes i).page
        check deleted
        return (some i, list, table)
      else batchLoop count table list (list.sweepFrom i)

/-- The loop over the frames that are wanted. -/
def batchVictims : ℕ → SieveReplacer_v3 → PageTable → List ℕ →
    Except Stop (Bool × List ℕ × SieveReplacer_v3 × PageTable)
  | 0, r, pt, mpageIds => .ok (true, mpageIds, r, pt)
  | pageNum + 1, r, pt, mpageIds => do
    let (taken, list, table) ← batchLoop (r.list.capacity * 2) pt r.list (r.list.start r.pointer)
    match taken with
    | none => return (!mpageIds.isEmpty, mpageIds, { r with list := list }, table)
    | some i => batchVictims pageNum ⟨(list.removeFromIndex i).2, list.getPrevNodeIndex i⟩ table (mpageIds ++ [i])

/-- The batch `Victim`, where `to_evict` happens to be `unset` before it is set. -/
def victims (unset pageNum : ℕ) (r : SieveReplacer_v3) (pt : PageTable) (mpageIds : List ℕ) :
    Except Stop (Bool × List ℕ × SieveReplacer_v3 × PageTable) :=
  if unset = ListArray.head r.list.capacity then .ok (false, mpageIds, r, pt) else batchVictims pageNum r pt mpageIds

/-- `Clean`; the hand stays where it is. -/
def clean (r : SieveReplacer_v3) : Bool × SieveReplacer_v3 := (true, { r with list := r.list.clean })

/-- `Erase`; the hand stays where it is. -/
def erase (r : SieveReplacer_v3) (value : ℕ) : Bool × SieveReplacer_v3 :=
  (true, { r with list := (r.list.removeFromIndex value).2 })

instance : Policy SieveReplacer_v3 where
  Constructed capacity r := r = new capacity
  insert := insert
  promote := promote
  victim _ := victim

end SieveReplacer_v3

/-- `SieveReplacer_v2`; a mark is 1 where the source has `true`. -/
structure SieveReplacer_v2 where
  list : ListArray ℕ
  pointer : ℕ

namespace SieveReplacer_v2

/-- The constructor. -/
def new (capacity : ℕ) : SieveReplacer_v2 := ⟨.new capacity, ListArray.head capacity⟩

/-- `Insert`; `nodes_` ends behind the sentinels. -/
def insert (r : SieveReplacer_v2) (value : ℕ) : Except Stop (Bool × SieveReplacer_v2) := do
  if r.list.capacity + 2 ≤ value then throw .badIndex
  if r.list.inList value then return (false, r)
  if r.list.capacity ≤ value then throw .badIndex
  let (moved, list) := (r.list.setValue value 0).moveToFront value
  check moved
  return (true, { r with list := list })

/-- `Promote`. -/
def promote (r : SieveReplacer_v2) (value : ℕ) : Except Stop (Bool × SieveReplacer_v2) := do
  if r.list.capacity + 2 ≤ value then throw .badIndex
  if r.list.inList value then
    if r.list.capacity ≤ value then throw .badIndex
    return (true, { r with list := r.list.setValue value 1 })
  return (false, r)

/-- The inner loop of `Victim`. -/
def skipVisited (list : ListArray ℕ) : ℕ → Except Stop (ℕ × ListArray ℕ) :=
  ListArray.skip (fun _ => 0) (list.marks + 1) list

/-- The outer loop of `Victim` with `count` tries left. -/
def victimLoop : PageTable → ℕ → ListArray ℕ → ℕ → Except Stop (ℕ × ListArray ℕ × PageTable)
  | _, 0, _, _ => .error .assertion
  | pt, count + 1, list, toEvict => do
    let (i, list) ← skipVisited list toEvict
    let (taken, table) ← pt.lockVictim i
    if taken then return (i, list, table)
    else victimLoop table count list (list.sweepFrom i)

/-- `Victim`. -/
def victim (r : SieveReplacer_v2) (pt : PageTable) : Except Stop (Option ℕ × SieveReplacer_v2 × PageTable) := do
  let toEvict := r.list.start r.pointer
  if toEvict = ListArray.head r.list.capacity then throw .assertion
  let (i, list, table) ← victimLoop pt (r.list.capacity * 2) r.list toEvict
  return (some i, ⟨(list.removeFromIndex i).2, list.getPrevNodeIndex i⟩, table)

instance : Policy SieveReplacer_v2 where
  Constructed capacity r := r = new capacity
  insert := insert
  promote := promote
  victim _ := victim

end SieveReplacer_v2

end Gbp.Indexed
