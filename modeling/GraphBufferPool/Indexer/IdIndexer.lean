import GraphBufferPool.Pool.PageTable

/-! # `IdIndexer`

An insertion-ordered set of keys: the index of a key is its place in `keys_`, and a table with ordered probing finds it
again. The table grows where an item would lie too far from its home, or the table would be more than half full. The
sizes and moduli of `prime_number_hash_policy` are a parameter, and `INDEX_T` has `w` bits. A `size_t` wraps at 2^64; no
memory has room for vectors of more than 2^52 entries, and up to there the load factor is exact.
-/

namespace Gbp

open Function

/-- `hash_policy_` and `hasher_`. The policy keeps a modulus: it is committed to a size, 0 after `reset`. The next size is
not far away. -/
structure Hashing (K : Type) where
  hasher : K → ℕ
  nextSizeOver : ℕ → ℕ
  indexForHash : ℕ → ℕ → ℕ
  le_nextSizeOver : ∀ n, n ≤ nextSizeOver n
  nextSizeOver_lt : ∀ n < 2 ^ 54, nextSizeOver n < 2 ^ 63
  indexForHash_reset : ∀ hash, indexForHash 0 hash = 0
  indexForHash_lt : ∀ size hash, 0 < size → indexForHash size hash < size

/-- `IdIndexer<KEY_T, INDEX_T>`; `entryNum` is the size of `indices_` and `distances_`. -/
structure IdIndexer (K : Type) where
  keys : List K
  indices : ℕ → ℕ
  distances : ℕ → ℤ
  entryNum : ℕ
  modulus : ℕ
  maxLookups : ℕ
  numElements : ℕ
  numSlotsMinusOne : ℕ

/-- Where the loop of a lookup ends. -/
inductive Lookup
  | found (index lid : ℕ)
  | stopped (index : ℕ) (distance : ℤ)
deriving DecidableEq, Repr

namespace IdIndexer

/-- The entries of a vector that there is memory for at most. -/
def maxEntries : ℕ := 2 ^ 52

/-- `min_lookups`. -/
def minLookups : ℕ := 4

/-- The table of `log2`. -/
def log2Table : List ℕ := [
  63, 0, 58, 1, 59, 47, 53, 2, 60, 39, 48, 27, 54, 33, 42, 3,
  61, 51, 37, 40, 49, 18, 28, 20, 55, 30, 34, 11, 43, 14, 22, 4,
  62, 57, 46, 52, 38, 26, 32, 41, 50, 36, 17, 19, 29, 10, 13, 21,
  56, 45, 25, 31, 35, 16, 9, 12, 44, 24, 15, 8, 23, 7, 6, 5]

/-- `log2`. -/
def log2 (value : ℕ) : ℕ :=
  let value := value ||| value >>> 1
  let value := value ||| value >>> 2
  let value := value ||| value >>> 4
  let value := value ||| value >>> 8
  let value := value ||| value >>> 16
  let value := value ||| value >>> 32
  log2Table.getD (((value - value >>> 1) * 0x07EDD5E59A4E28C2 % 2 ^ 64) >>> 58) 0

/-- `compute_max_lookups`. -/
def computeMaxLookups (numBuckets : ℕ) : ℕ := max minLookups (log2 numBuckets)

variable {K : Type}

/-- `reset_to_empty_state`. -/
def resetToEmptyState : IdIndexer K where
  keys := []
  indices := fun _ => 0
  distances := fun i => if i = minLookups - 1 then 0 else -1
  entryNum := minLookups
  modulus := 0
  maxLookups := minLookups - 1
  numElements := 0
  numSlotsMinusOne := 0

/-- `bucket_count`. -/
def bucketCount (s : IdIndexer K) : ℕ := if s.numSlotsMinusOne = 0 then 0 else s.numSlotsMinusOne + 1

/-- `get_key`. -/
def getKey (s : IdIndexer K) (lid : ℕ) : Option K := if lid ≥ s.numElements then none else s.keys[lid]?

section model

variable [DecidableEq K] (hash : Hashing K)

/-- `hash_policy_.index_for_hash(hasher_(oid), num_slots_minus_one_)`. -/
def home (s : IdIndexer K) (oid : K) : ℕ := hash.indexForHash s.modulus (hash.hasher oid)

/-- `keys_[lid] == oid`. -/
def keyIs (s : IdIndexer K) (oid : K) (lid : ℕ) : Except Stop Bool :=
  match s.keys[lid]? with
  | some key => .ok (key = oid)
  | none => .error .badIndex

/-- The loop of a lookup from `index` on, with `n` entries left in `distances_`. -/
def lookupFrom (s : IdIndexer K) (hit : ℕ → Except Stop Bool) : ℕ → ℕ → ℤ → Except Stop Lookup
  | 0, _, _ => .error .badIndex
  | n + 1, index, distance =>
    if s.distances index ≥ distance then do
      if ← hit (s.indices index) then return .found index (s.indices index)
      s.lookupFrom hit n (index + 1) (distance + 1)
    else .ok (.stopped index distance)

/-- The loop of a lookup. -/
def lookup (s : IdIndexer K) (hit : ℕ → Except Stop Bool) (index : ℕ) : Except Stop Lookup :=
  s.lookupFrom hit (s.entryNum - index) index 0

/-- `get_index`. -/
def getIndex (s : IdIndexer K) (oid : K) : Except Stop (Option ℕ) := do
  match ← s.lookup (s.keyIs oid) (s.home hash oid) with
  | .found _ lid => return some lid
  | .stopped _ _ => return none

/-- `indices_[index] = lid` and `distances_[index] = distance`. -/
def write (s : IdIndexer K) (index : ℕ) (distance : ℤ) (lid : ℕ) : IdIndexer K :=
  { s with
    indices := update s.indices index lid
    distances := update s.distances index distance }

/-- The loop of `emplace_new_value`, with `n` entries left: whether it found a free slot, or has to grow. -/
def displace : ℕ → IdIndexer K → ℤ → ℕ → ℕ → Except Stop (Bool × IdIndexer K)
  | 0, _, _, _, _ => .error .badIndex
  | n + 1, s, distance, index, toInsert =>
    if s.distances index < 0 then
      .ok (true, { s.write index distance toInsert with numElements := s.numElements + 1 })
    else if s.distances index < distance then
      displace n (s.write index distance toInsert) (s.distances index + 1) (index + 1) (s.indices index)
    else if distance + 1 = s.maxLookups then .ok (false, s)
    else displace n s (distance + 1) (index + 1) toInsert

/-- `emplace_new_value`. -/
def emplaceNewValue (grow : IdIndexer K → Except Stop (IdIndexer K)) (s : IdIndexer K) (distance : ℤ) (index lid : ℕ) :
    Except Stop (IdIndexer K) :=
  if s.numSlotsMinusOne = 0 ∨ distance = s.maxLookups ∨ 2 * (s.numElements + 1) > s.numSlotsMinusOne + 1 then grow s
  else if index ≥ s.entryNum then .error .badIndex
  else if s.distances index < 0 then
    .ok { s.write index distance lid with numElements := s.numElements + 1 }
  else
    displace (s.entryNum - (index + 1)) (s.write index distance lid) (s.distances index + 1) (index + 1)
      (s.indices index) >>= fun ended => if ended.1 then .ok ended.2 else grow ended.2

/-- `emplace`. -/
def emplace (grow : IdIndexer K → Except Stop (IdIndexer K)) (s : IdIndexer K) (lid : ℕ) :
    Except Stop (IdIndexer K) :=
  match s.keys[lid]? with
  | none => .error .badIndex
  | some key => do
    match ← s.lookup (fun cur => .ok (cur = lid)) (s.home hash key) with
    | .found _ _ => return s
    | .stopped index distance => s.emplaceNewValue grow distance index lid

/-- The empty table of a size, with the keys. -/
def cleared (s : IdIndexer K) (numBuckets : ℕ) : IdIndexer K :=
  let newMaxLookups := computeMaxLookups numBuckets
  let specialEndIndex := (numBuckets + newMaxLookups + (2 ^ 64 - 1)) % 2 ^ 64
  { keys := s.keys
    indices := fun _ => 0
    distances := fun i => if i = specialEndIndex then 0 else -1
    entryNum := (numBuckets + newMaxLookups) % 2 ^ 64
    modulus := numBuckets
    maxLookups := newMaxLookups
    numElements := 0
    numSlotsMinusOne := numBuckets - 1 }

/-- `rehash`, where `emplace` grows the table by `grow`. -/
def rehash (w : ℕ) (grow : IdIndexer K → Except Stop (IdIndexer K)) (s : IdIndexer K) (numBuckets : ℕ) :
    Except Stop (IdIndexer K) :=
  let numBuckets := max numBuckets (2 * s.numElements)
  if numBuckets = 0 then .ok resetToEmptyState
  else
    let numBuckets := hash.nextSizeOver numBuckets
    if numBuckets = s.bucketCount then .ok s
    else if maxEntries < (s.cleared numBuckets).entryNum then .error .outOfMemory
    else (List.range (s.keys.length % 2 ^ w)).foldlM (emplace hash grow) (s.cleared numBuckets)

/-- `grow`, which may happen again in the midst of its `rehash`. -/
def grow (w : ℕ) : ℕ → IdIndexer K → Except Stop (IdIndexer K)
  | 0, _ => .error .outOfFuel
  | fuel + 1, s => rehash hash w (grow w fuel) s (max 4 (2 * s.bucketCount))

/-- `_rehash`, whose `int` becomes a `size_t`. -/
def rehashInt (w fuel : ℕ) (s : IdIndexer K) (num : ℤ) : Except Stop (IdIndexer K) :=
  rehash hash w (grow hash w fuel) s (num % 2 ^ 64).toNat

/-- `add`: whether the key is new, its index, and the indexer. -/
def add (w fuel : ℕ) (s : IdIndexer K) (oid : K) : Except Stop (Bool × ℕ × IdIndexer K) := do
  match ← s.lookup (s.keyIs oid) (s.home hash oid) with
  | .found _ lid => return (false, lid, s)
  | .stopped index distance =>
    let lid := s.keys.length % 2 ^ w
    return (true, lid, ← emplaceNewValue (grow hash w fuel) { s with keys := s.keys ++ [oid] } distance index lid)

end model

end IdIndexer

end Gbp
