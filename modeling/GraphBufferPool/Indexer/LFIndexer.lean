import GraphBufferPool.Indexer.IdIndexer

/-! # `LFIndexer`

A table from 64-bit keys to indices that only grows: a slot is taken by a compare-and-swap of its index, and its key is
written afterwards. It is made from an `IdIndexer` by `build_lf_indexer`. Its arrays return items as written; the loops
walk them in blocks of the items up to the end of a page.
-/

namespace Gbp

open Function

/-- `index_key_item<INDEX_T>`. -/
@[ext] structure IndexKeyItem where
  index : ℕ
  key : ℤ
deriving DecidableEq, Repr

/-- `LFIndexer<INDEX_T>`. -/
structure LFIndexer where
  keys : ℕ → ℤ
  keysSize : ℕ
  indices : ℕ → IndexKeyItem
  indicesSize : ℕ
  modulus : ℕ
  numElements : ℕ
  numSlotsMinusOne : ℕ

/-- `items`, a block of items of `indices_`, with the bounds that a loop keeps for it. -/
structure Items where
  first : ℕ
  numGet : ℕ
  startIndex : ℕ
  endIndex : ℕ
deriving DecidableEq, Repr

namespace Items

/-- `items = indices_.get(index, num_get)`, with its bounds. -/
def get (index numGet : ℕ) : Items := ⟨index, numGet, index % 2 ^ 32, (index + numGet) % 2 ^ 32⟩

/-- The block for `index`: the one at hand, or else a new one. -/
def upTo (items : Items) (numGet : ℕ → ℕ) (index : ℕ) : Items :=
  if index < items.startIndex ∨ index ≥ items.endIndex then get index (numGet index) else items

end Items

namespace LFIndexer

/-- `sentinel`. -/
def sentinel (w : ℕ) : ℕ := 2 ^ w - 1

/-- `hash_policy_.index_for_hash(hasher_(oid), num_slots_minus_one_)`. -/
def home (hash : Hashing ℤ) (s : LFIndexer) (oid : ℤ) : ℕ := hash.indexForHash s.modulus (hash.hasher oid)

/-- The number of items to the end of a page, `perPage` for `OBJ_NUM_PERPAGE`. -/
def restOfPage (perPage index : ℕ) : ℕ := perPage - index % perPage

/-- `num_get` in `get_index`. -/
def numGet (perPage : ℕ) (s : LFIndexer) (index : ℕ) : ℕ := min (restOfPage perPage index) (s.indicesSize - index)

/-- The item `index - start_index` of a block, as an item of `indices_`. -/
def place (s : LFIndexer) (items : Items) (index : ℕ) : Except Stop ℕ :=
  if index - items.startIndex < items.numGet ∧ items.first + (index - items.startIndex) < s.indicesSize then
    .ok (items.first + (index - items.startIndex))
  else .error .badIndex

/-- `keys_.set`. -/
def setKey (s : LFIndexer) (ind : ℕ) (oid : ℤ) : Except Stop LFIndexer :=
  if ind < s.keysSize then .ok { s with keys := update s.keys ind oid } else .error .badIndex

/-- The slot with an item. -/
def setItem (s : LFIndexer) (index : ℕ) (item : IndexKeyItem) : LFIndexer :=
  { s with indices := update s.indices index item }

/-- `get_key`. -/
def getKey (s : LFIndexer) (ind : ℕ) : Except Stop ℤ := if ind < s.keysSize then .ok (s.keys ind) else .error .badIndex

/-- The loop of `get_index`. -/
def getIndexFrom (w perPage : ℕ) (s : LFIndexer) (oid : ℤ) : ℕ → Items → ℕ → Except Stop (Option ℕ)
  | 0, _, _ => .error .outOfFuel
  | fuel + 1, items, index => do
    let items := items.upTo (numGet perPage s) index
    let place ← s.place items index
    if (s.indices place).index = sentinel w then return none
    if (s.indices place).key = oid then return some (s.indices place).index
    s.getIndexFrom w perPage oid fuel items ((index + 1) % s.numSlotsMinusOne)

/-- `get_index`. -/
def getIndex (w perPage : ℕ) (hash : Hashing ℤ) (s : LFIndexer) (oid : ℤ) (fuel : ℕ) : Except Stop (Option ℕ) :=
  s.getIndexFrom w perPage oid fuel (.get (s.home hash oid) (numGet perPage s (s.home hash oid))) (s.home hash oid)

section build

variable (hash : Hashing ℤ) (w : ℕ)

/-- The first loop of `build_lf_indexer` for one key: an entry behind the ring is put aside. -/
def copyEntry (input : IdIndexer ℤ) (state : LFIndexer × List (ℤ × ℕ)) (oid : ℤ) :
    Except Stop (LFIndexer × List (ℤ × ℕ)) := do
  match ← input.lookup (input.keyIs oid) (input.home hash oid) with
  | .found index ret =>
    if index ≥ input.numSlotsMinusOne then return (state.1, state.2 ++ [(oid, ret)])
    else return (state.1.setItem index ⟨ret, oid⟩, state.2)
  | .stopped _ _ => return state

/-- The second loop of `build_lf_indexer` for an entry that was put aside. -/
def putExtra (s : LFIndexer) (oid : ℤ) (ret : ℕ) : ℕ → ℕ → Except Stop LFIndexer
  | 0, _ => .error .outOfFuel
  | fuel + 1, index =>
    if index ≥ s.indicesSize then .error .badIndex
    else if (s.indices index).index = sentinel w then .ok (s.setItem index ⟨ret, oid⟩)
    else s.putExtra oid ret fuel ((index + 1) % s.numSlotsMinusOne)

/-- The arrays before the loops of `build_lf_indexer`: the keys of `input`, and free slots. -/
def unfilled (input : IdIndexer ℤ) : LFIndexer where
  keys := fun k => input.keys.getD k (2 ^ 63 - 1)
  keysSize := max (5 * input.keys.length / 4 + 1) 1024
  indices := fun _ => ⟨sentinel w, 0⟩
  indicesSize := input.entryNum
  modulus := input.modulus
  numElements := input.keys.length
  numSlotsMinusOne := input.numSlotsMinusOne

/-- `build_lf_indexer`, with `rate` 0.8. -/
def build (input : IdIndexer ℤ) (fuel : ℕ) : Except Stop LFIndexer := do
  check (5 * input.keys.length < 4 * input.entryNum)
  let filled ← input.keys.foldlM (copyEntry hash input) (unfilled w input, [])
  filled.2.foldlM (fun lf pair => putExtra w lf pair.1 pair.2 fuel (input.home hash pair.1)) filled.1

end build

end LFIndexer

end Gbp
