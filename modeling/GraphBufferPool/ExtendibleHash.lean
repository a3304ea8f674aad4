import GraphBufferPool.Lib.LowBits
import GraphBufferPool.Lib.Reach
import GraphBufferPool.Pool.PageTable

/-! # `ExtendibleHash`

A directory of buckets selected by the low bits of a hash. A full bucket is split until the new key's
bucket has room; each split lets the bucket look at one more bit, doubling the directory where it has not that
many. Whatever the hash function, the table answers as a finite map.
-/

namespace Gbp

open Function LowBits

/-- `Bucket`: `kmap` by its keys and their values. -/
structure Bucket (K V : Type) where
  localDepth : ℕ
  keys : Finset K
  value : K → V

/-- `ExtendibleHash<K, V>`: the pointers in `buckets_`, and the buckets that were made. -/
structure ExtendibleHash (K V : Type) where
  globalDepth : ℕ
  bucketSize : ℕ
  bucketNum : ℕ
  buckets : List ℕ
  bucket : ℕ → Bucket K V
  made : ℕ

variable {K V : Type}

namespace Bucket

variable [DecidableEq K]

/-- `kmap.find(key)`. -/
def find (b : Bucket K V) (key : K) : Option V := if key ∈ b.keys then some (b.value key) else none

/-- `kmap[key] = value`. -/
def store (b : Bucket K V) (key : K) (value : V) : Bucket K V :=
  { b with keys := insert key b.keys, value := update b.value key value }

/-- `kmap.erase(key)`. -/
def erase (b : Bucket K V) (key : K) : Bucket K V := { b with keys := b.keys.erase key }

/-- The keys that pass the test, in a bucket of this depth. -/
def part (b : Bucket K V) (depth : ℕ) (test : K → Bool) : Bucket K V :=
  { b with localDepth := depth, keys := b.keys.filter fun key => test key }

variable (b : Bucket K V) (key other : K) (v : V)

theorem find_store : (b.store key v).find other = if other = key then some v else b.find other := by
  unfold find store
  by_cases same : other = key
  · simp [same]
  · simp [same]

theorem find_erase : (b.erase key).find other = if other = key then none else b.find other := by
  unfold find erase
  by_cases same : other = key
  · simp [same]
  · simp [same]

theorem find_part (depth : ℕ) (test : K → Bool) (passes : test key = true) : (b.part depth test).find key = b.find key := by
  unfold find part
  simp [passes]

end Bucket

namespace ExtendibleHash

section model

variable [DecidableEq K]

/-- `ExtendibleHash(size)`. -/
def new [Inhabited V] (size : ℕ) : ExtendibleHash K V := ⟨0, size, 1, [0], fun _ => ⟨0, ∅, fun _ => default⟩, 1⟩

/-- `getIdx`; the mask is an `int`, which holds it for depths below 31. -/
def getIdx (hash : K → ℕ) (t : ExtendibleHash K V) (key : K) : ℕ := hash key &&& (1 <<< t.globalDepth) - 1

/-- `buckets_[i]`. -/
def entry (t : ExtendibleHash K V) (i : ℕ) : ℕ := t.buckets.getD i 0

/-- The bucket of a key. -/
def bucketOf (hash : K → ℕ) (t : ExtendibleHash K V) (key : K) : ℕ := t.entry (t.getIdx hash key)

/-- `Find`. -/
def find (hash : K → ℕ) (t : ExtendibleHash K V) (key : K) : Option V := (t.bucket (t.bucketOf hash key)).find key

/-- `Remove`. -/
def remove (hash : K → ℕ) (t : ExtendibleHash K V) (key : K) : Bool × ExtendibleHash K V :=
  let cur := t.bucketOf hash key
  if key ∈ (t.bucket cur).keys then (true, { t with bucket := update t.bucket cur ((t.bucket cur).erase key) })
  else (false, t)

/-- The part of the loop of `Insert` that splits the bucket `cur`. -/
def split (hash : K → ℕ) (t : ExtendibleHash K V) (cur : ℕ) : ExtendibleHash K V :=
  let mask := 1 <<< (t.bucket cur).localDepth
  let depth := (t.bucket cur).localDepth + 1
  let buckets := if depth > t.globalDepth then t.buckets ++ t.buckets else t.buckets
  let globalDepth := if depth > t.globalDepth then t.globalDepth + 1 else t.globalDepth
  let newBuc := (t.bucket cur).part depth fun key => hash key &&& mask != 0
  let rest := (t.bucket cur).part depth fun key => hash key &&& mask == 0
  { t with
    globalDepth := globalDepth
    bucketNum := t.bucketNum + 1
    buckets := buckets.mapIdx fun i b => if b = cur ∧ i &&& mask ≠ 0 then t.made else b
    bucket := update (update t.bucket cur rest) t.made newBuc
    made := t.made + 1 }

/-- `Insert`: the bucket of the key is split until it has the key already, or room for it. -/
def insert (hash : K → ℕ) : ℕ → ExtendibleHash K V → K → V → Except Stop (ExtendibleHash K V)
  | 0, _, _, _ => .error .outOfFuel
  | fuel + 1, t, key, value =>
    let cur := t.bucketOf hash key
    if key ∈ (t.bucket cur).keys ∨ (t.bucket cur).keys.card < t.bucketSize then
      .ok { t with bucket := update t.bucket cur ((t.bucket cur).store key value) }
    else insert hash fuel (t.split hash cur) key value

end model

/-- The table between two calls. -/
structure WellFormed (hash : K → ℕ) (t : ExtendibleHash K V) : Prop where
  length : t.buckets.length = 2 ^ t.globalDepth
  shallow : ∀ b ∈ t.buckets, (t.bucket b).localDepth ≤ t.globalDepth
  shared : ∀ i j b b', t.buckets[i]? = some b → t.buckets[j]? = some b' →
    (b = b' ↔ i % 2 ^ (t.bucket b).localDepth = j % 2 ^ (t.bucket b).localDepth)
  placed : ∀ b ∈ t.buckets, ∀ key ∈ (t.bucket b).keys, t.buckets[t.getIdx hash key]? = some b
  small : ∀ b ∈ t.buckets, (t.bucket b).keys.card ≤ t.bucketSize
  distinct : t.buckets.toFinset.card = t.bucketNum

/-- The bucket that a hash value selects. -/
def select (t : ExtendibleHash K V) (n : ℕ) : ℕ := t.entry (n % 2 ^ t.globalDepth)

/-- The invariant, by hash values. -/
structure Inv (hash : K → ℕ) (t : ExtendibleHash K V) : Prop where
  length : t.buckets.length = 2 ^ t.globalDepth
  classes : Classes t.select fun b => (t.bucket b).localDepth
  shallow : ∀ n, (t.bucket (t.select n)).localDepth ≤ t.globalDepth
  placed : ∀ n, ∀ key ∈ (t.bucket (t.select n)).keys, t.select (hash key) = t.select n
  small : ∀ n, (t.bucket (t.select n)).keys.card ≤ t.bucketSize
  distinct : t.buckets.toFinset.card = t.bucketNum
  fresh : ∀ n, t.select n < t.made

variable {hash : K → ℕ} {t : ExtendibleHash K V}

theorem getIdx_eq (hash : K → ℕ) (t : ExtendibleHash K V) (key : K) : t.getIdx hash key = hash key % 2 ^ t.globalDepth := by
  rw [getIdx, Nat.one_shiftLeft, Nat.and_two_pow_sub_one_eq_mod]

theorem bucketOf_eq (hash : K → ℕ) (t : ExtendibleHash K V) (key : K) : t.bucketOf hash key = t.select (hash key) := by
  rw [bucketOf, getIdx_eq, select]

/-- The test of one bit in the loops of `Insert`. -/
theorem and_mask_ne_zero (n d : ℕ) : n &&& 1 <<< d ≠ 0 ↔ n.testBit d = true := by
  rw [Nat.one_shiftLeft, Nat.and_two_pow]
  cases n.testBit d <;> simp

theorem getElem?_of_length (length : t.buckets.length = 2 ^ t.globalDepth) {i : ℕ} (inside : i < 2 ^ t.globalDepth) :
    t.buckets[i]? = some (t.select i) := by
  rw [select, Nat.mod_eq_of_lt inside, entry, List.getD_eq_getElem?_getD,
    List.getElem?_eq_getElem (length.symm ▸ inside), Option.getD_some]

/-- The buckets in the directory are those that some hash value selects. -/
theorem mem_buckets_iff (length : t.buckets.length = 2 ^ t.globalDepth) (b : ℕ) :
    b ∈ t.buckets ↔ ∃ n, t.select n = b := by
  constructor
  · intro member
    obtain ⟨i, inside, rfl⟩ := List.mem_iff_getElem.mp member
    refine ⟨i, ?_⟩
    have here := getElem?_of_length length (length ▸ inside)
    rw [List.getElem?_eq_getElem inside] at here
    exact (Option.some.inj here).symm
  · rintro ⟨n, rfl⟩
    have inside : n % 2 ^ t.globalDepth < 2 ^ t.globalDepth := Nat.mod_lt _ (Nat.two_pow_pos _)
    have here := getElem?_of_length length inside
    have same : t.select (n % 2 ^ t.globalDepth) = t.select n := by rw [select, Nat.mod_mod, select]
    rw [← same]
    exact List.mem_of_getElem? here

theorem Inv.wellFormed (inv : t.Inv hash) : t.WellFormed hash := by
  have length := inv.length
  have selects (b : ℕ) (member : b ∈ t.buckets) : ∃ n, t.select n = b := (mem_buckets_iff length b).mp member
  have entries (i b : ℕ) (here : t.buckets[i]? = some b) : t.select i = b := by
    obtain ⟨inside, _⟩ := List.getElem?_eq_some_iff.mp here
    exact Option.some.inj ((getElem?_of_length length (length ▸ inside)).symm.trans here)
  refine ⟨length, fun b member => ?_, fun i j b b' here there => ?_, fun b member key inside => ?_,
    fun b member => ?_, inv.distinct⟩
  · obtain ⟨n, rfl⟩ := selects b member
    exact inv.shallow n
  · rw [← entries i b here, ← entries j b' there]
    exact inv.classes i j
  · obtain ⟨n, rfl⟩ := selects b member
    rw [getIdx_eq, getElem?_of_length length (Nat.mod_lt _ (Nat.two_pow_pos _)), inv.classes.select_mod inv.shallow,
      inv.placed n key inside]
  · obtain ⟨n, rfl⟩ := selects b member
    exact inv.small n

theorem inv_new [Inhabited V] (size : ℕ) : (new size : ExtendibleHash K V).Inv hash := by
  have one (n : ℕ) : (new size : ExtendibleHash K V).select n = 0 := by
    rw [select]
    change List.getD [0] (n % 2 ^ 0) 0 = 0
    rw [pow_zero, Nat.mod_one]
    rfl
  refine ⟨rfl, fun i j => ?_, fun n => le_rfl, fun n key inside => ?_, fun n => Nat.zero_le _, rfl, fun n => ?_⟩
  · rw [one, one]
    exact iff_of_true rfl (by change i % 2 ^ 0 = j % 2 ^ 0; rw [pow_zero, Nat.mod_one, Nat.mod_one])
  · rw [one, one]
  · rw [one]
    exact Nat.zero_lt_one

/-- The table with another bucket of the same depth in place of one. -/
def setBucket (t : ExtendibleHash K V) (cur : ℕ) (b : Bucket K V) : ExtendibleHash K V :=
  { t with bucket := update t.bucket cur b }

theorem setBucket_select (t : ExtendibleHash K V) (cur : ℕ) (b : Bucket K V) : (t.setBucket cur b).select = t.select := rfl

theorem Inv.setBucket (inv : t.Inv hash) (cur : ℕ) {b : Bucket K V} (depth : b.localDepth = (t.bucket cur).localDepth)
    (placed : ∀ key ∈ b.keys, t.select (hash key) = cur) (small : b.keys.card ≤ t.bucketSize) :
    (t.setBucket cur b).Inv hash := by
  have depths (e : ℕ) : ((t.setBucket cur b).bucket e).localDepth = (t.bucket e).localDepth := by
    by_cases same : e = cur
    · subst same
      simpa [ExtendibleHash.setBucket] using depth
    · simp [ExtendibleHash.setBucket, same]
  refine ⟨inv.length, ?_, fun n => ?_, fun n key inside => ?_, fun n => ?_, inv.distinct, inv.fresh⟩
  · simp only [depths]
    exact inv.classes
  · rw [depths]
    exact inv.shallow n
  · rw [setBucket_select] at inside ⊢
    by_cases same : t.select n = cur
    · rw [same] at inside ⊢
      apply placed key
      simpa [ExtendibleHash.setBucket] using inside
    · apply inv.placed n key
      simpa [ExtendibleHash.setBucket, same] using inside
  · rw [setBucket_select]
    by_cases same : t.select n = cur
    · rw [same]
      simpa [ExtendibleHash.setBucket] using small
    · simpa [ExtendibleHash.setBucket, same] using inv.small n

section split

variable {cur : ℕ}

theorem split_globalDepth (hash : K → ℕ) (t : ExtendibleHash K V) (cur : ℕ) : (t.split hash cur).globalDepth =
    if (t.bucket cur).localDepth + 1 > t.globalDepth then t.globalDepth + 1 else t.globalDepth := rfl

theorem split_made :
    (t.split hash cur).bucket t.made = (t.bucket cur).part ((t.bucket cur).localDepth + 1)
      fun key => hash key &&& 1 <<< (t.bucket cur).localDepth != 0 := by
  simp [split]

theorem split_cur (apart : cur ≠ t.made) :
    (t.split hash cur).bucket cur = (t.bucket cur).part ((t.bucket cur).localDepth + 1)
      fun key => hash key &&& 1 <<< (t.bucket cur).localDepth == 0 := by
  simp [split, apart]

theorem split_other {b : ℕ} (other : b ≠ cur) (old : b ≠ t.made) : (t.split hash cur).bucket b = t.bucket b := by
  simp [split, other, old]

/-- The directory of a split looks at the bit that the split bucket does. -/
theorem Inv.split_depth (inv : t.Inv hash) (here : ∃ n, t.select n = cur) :
    (t.bucket cur).localDepth < (t.split hash cur).globalDepth ∧ t.globalDepth ≤ (t.split hash cur).globalDepth := by
  obtain ⟨n, rfl⟩ := here
  have shallow := inv.shallow n
  rw [split_globalDepth]
  split_ifs <;> omega

/-- The directory with or without its copy behind it. -/
theorem Inv.doubled (inv : t.Inv hash) (here : ∃ n, t.select n = cur) {i : ℕ}
    (inside : i < 2 ^ (t.split hash cur).globalDepth) :
    (if (t.bucket cur).localDepth + 1 > t.globalDepth then t.buckets ++ t.buckets else t.buckets)[i]? =
      some (t.select i) := by
  rw [split_globalDepth] at inside
  split_ifs at inside ⊢ with deep
  · rw [List.getElem?_append, inv.length]
    split_ifs with low
    · exact getElem?_of_length inv.length low
    · have small : i - 2 ^ t.globalDepth < 2 ^ t.globalDepth := by
        rw [pow_succ] at inside
        omega
      have same : t.select (i - 2 ^ t.globalDepth) = t.select i := by
        rw [select, select, ← Nat.mod_eq_sub_mod (Nat.le_of_not_lt low)]
      rw [getElem?_of_length inv.length small, same]
  · exact getElem?_of_length inv.length inside

theorem Inv.split_length (inv : t.Inv hash) :
    (t.split hash cur).buckets.length = 2 ^ (t.split hash cur).globalDepth := by
  have length := inv.length
  rw [split_globalDepth, split]
  simp only [List.length_mapIdx]
  split_ifs with deep
  · rw [List.length_append, length, pow_succ]
    omega
  · exact length

/-- What the split does to the selection. -/
theorem Inv.split_select (inv : t.Inv hash) (here : ∃ n, t.select n = cur) :
    (t.split hash cur).select = splitAt t.select cur t.made (t.bucket cur).localDepth := by
  obtain ⟨deep, grown⟩ := inv.split_depth here
  funext n
  set i := n % 2 ^ (t.split hash cur).globalDepth with index
  have inside : i < 2 ^ (t.split hash cur).globalDepth := Nat.mod_lt _ (Nat.two_pow_pos _)
  have same : t.select i = t.select n := inv.classes.select_mod (fun k => (inv.shallow k).trans grown) n
  have bit : i.testBit (t.bucket cur).localDepth = n.testBit (t.bucket cur).localDepth := by
    rw [index, Nat.testBit_mod_two_pow, decide_eq_true deep, Bool.true_and]
  have entry : (t.split hash cur).buckets[i]? =
      some (if t.select i = cur ∧ i &&& 1 <<< (t.bucket cur).localDepth ≠ 0 then t.made else t.select i) := by
    have doubled := inv.doubled here inside
    simp only [ExtendibleHash.split, List.getElem?_mapIdx]
    rw [doubled]
    rfl
  rw [select, ← index, ExtendibleHash.entry, List.getD_eq_getElem?_getD, entry, Option.getD_some, splitAt]
  simp only [and_mask_ne_zero, same, bit]

theorem Inv.split (inv : t.Inv hash) (here : ∃ n, t.select n = cur) : (t.split hash cur).Inv hash := by
  have selects := inv.split_select here
  obtain ⟨deep, grown⟩ := inv.split_depth here
  have fresh (n : ℕ) : t.select n ≠ t.made := (inv.fresh n).ne
  have apart : cur ≠ t.made := by
    obtain ⟨n, rfl⟩ := here
    exact fresh n
  have inCur := @split_cur _ _ hash t cur apart
  have inMade := @split_made _ _ hash t cur
  have others {b : ℕ} (other : b ≠ cur) (old : b ≠ t.made) := @split_other _ _ hash t cur b other old
  -- Where a hash value is selected after the split.
  have cases (n : ℕ) : t.select n = cur ∧ n.testBit (t.bucket cur).localDepth = false ∧
        (t.split hash cur).select n = cur ∨
      t.select n = cur ∧ n.testBit (t.bucket cur).localDepth = true ∧ (t.split hash cur).select n = t.made ∨
      t.select n ≠ cur ∧ (t.split hash cur).select n = t.select n := by
    rw [selects]
    by_cases same : t.select n = cur
    · cases bit : n.testBit (t.bucket cur).localDepth with
      | false => exact Or.inl ⟨same, rfl, splitAt_old same bit⟩
      | true => exact Or.inr (Or.inl ⟨same, rfl, splitAt_new same bit⟩)
    · exact Or.inr (Or.inr ⟨same, splitAt_other same⟩)
  refine ⟨inv.split_length, ?_, fun n => ?_, fun n key inside => ?_, fun n => ?_, ?_, fun n => ?_⟩
  · rw [selects]
    refine inv.classes.split rfl fresh ?_ ?_ (fun e other old => ?_) here
    · rw [inCur]
      rfl
    · rw [inMade]
      rfl
    · rw [others other old]
  · rcases cases n with ⟨_, _, after⟩ | ⟨_, _, after⟩ | ⟨other, after⟩
    · rw [after, inCur]
      exact deep
    · rw [after, inMade]
      exact deep
    · rw [after, others other (fresh n)]
      exact (inv.shallow n).trans grown
  · rcases cases n with ⟨same, _, after⟩ | ⟨same, _, after⟩ | ⟨other, after⟩
    · rw [after, inCur] at inside
      obtain ⟨member, clear⟩ := Finset.mem_filter.mp inside
      have old := inv.placed n key (same.symm ▸ member)
      rw [after, selects]
      apply splitAt_old (old.trans same)
      rw [← Bool.not_eq_true, ← and_mask_ne_zero]
      simpa using clear
    · rw [after, inMade] at inside
      obtain ⟨member, set⟩ := Finset.mem_filter.mp inside
      have old := inv.placed n key (same.symm ▸ member)
      rw [after, selects]
      apply splitAt_new (old.trans same)
      rw [← and_mask_ne_zero]
      simpa using set
    · rw [after, others other (fresh n)] at inside
      have old := inv.placed n key inside
      rw [after, selects, splitAt_other (by rwa [old]), old]
  · have bound : (t.bucket cur).keys.card ≤ t.bucketSize := by
      obtain ⟨k, rfl⟩ := here
      exact inv.small k
    rcases cases n with ⟨_, _, after⟩ | ⟨_, _, after⟩ | ⟨other, after⟩
    · rw [after, inCur]
      exact (Finset.card_filter_le _ _).trans bound
    · rw [after, inMade]
      exact (Finset.card_filter_le _ _).trans bound
    · rw [after, others other (fresh n)]
      exact inv.small n
  · have more : (t.split hash cur).buckets.toFinset = Insert.insert t.made t.buckets.toFinset := by
      ext b
      rw [List.mem_toFinset, mem_buckets_iff inv.split_length, selects, inv.classes.exists_splitAt rfl here,
        Finset.mem_insert, List.mem_toFinset, mem_buckets_iff inv.length]
    have absent : t.made ∉ t.buckets.toFinset := by
      rw [List.mem_toFinset, mem_buckets_iff inv.length]
      rintro ⟨n, same⟩
      exact fresh n same
    rw [more, Finset.card_insert_of_notMem absent, inv.distinct]
    rfl
  · change _ < t.made + 1
    rcases cases n with ⟨same, _, after⟩ | ⟨_, _, after⟩ | ⟨_, after⟩
    · rw [after, ← same]
      exact (inv.fresh n).trans (Nat.lt_succ_self _)
    · rw [after]
      exact Nat.lt_succ_self _
    · rw [after]
      exact (inv.fresh n).trans (Nat.lt_succ_self _)

end split

variable [DecidableEq K]

/-- What a table with one changed bucket finds. -/
theorem find_setBucket (t : ExtendibleHash K V) (key : K) (b : Bucket K V) (other : K) :
    (t.setBucket (t.select (hash key)) b).find hash other =
      if t.select (hash other) = t.select (hash key) then b.find other else t.find hash other := by
  unfold find
  rw [bucketOf_eq, bucketOf_eq, setBucket_select]
  by_cases same : t.select (hash other) = t.select (hash key)
  · rw [if_pos same, same]
    simp [ExtendibleHash.setBucket]
  · rw [if_neg same]
    simp [ExtendibleHash.setBucket, same]

/-- A split moves keys but loses none. -/
theorem Inv.find_split (inv : t.Inv hash) {cur : ℕ} (here : ∃ n, t.select n = cur) (key : K) :
    (t.split hash cur).find hash key = t.find hash key := by
  have apart : cur ≠ t.made := by
    obtain ⟨n, rfl⟩ := here
    exact (inv.fresh n).ne
  unfold find
  rw [bucketOf_eq, bucketOf_eq, inv.split_select here]
  by_cases same : t.select (hash key) = cur
  · cases bit : (hash key).testBit (t.bucket cur).localDepth with
    | false =>
      have clear : ¬ hash key &&& 1 <<< (t.bucket cur).localDepth ≠ 0 := by
        rw [and_mask_ne_zero, bit]
        exact Bool.false_ne_true
      rw [splitAt_old same bit, split_cur apart, same, Bucket.find_part _ _ _ _ (by simpa using clear)]
    | true =>
      have set := (and_mask_ne_zero _ _).mpr bit
      rw [splitAt_new same bit, split_made, same, Bucket.find_part _ _ _ _ (by simpa using set)]
  · rw [splitAt_other same, split_other same (inv.fresh _).ne]

/-- `Insert`, after however many splits. -/
theorem Inv.insert (inv : t.Inv hash) {fuel : ℕ} {key : K} {value : V} {t' : ExtendibleHash K V}
    (ran : t.insert hash fuel key value = .ok t') : t'.Inv hash ∧
      ∀ other, t'.find hash other = if other = key then some value else t.find hash other := by
  induction fuel generalizing t with
  | zero => cases ran
  | succ fuel ih =>
    rw [ExtendibleHash.insert, bucketOf_eq] at ran
    split_ifs at ran with room
    · cases ran
      refine ⟨inv.setBucket (t.select (hash key)) rfl (fun other inside => ?_) ?_, fun other => ?_⟩
      · rcases Finset.mem_insert.mp inside with rfl | member
        · rfl
        · exact inv.placed _ other member
      · rcases room with member | less
        · rw [Bucket.store, Finset.insert_eq_of_mem member]
          exact inv.small _
        · exact (Finset.card_insert_le _ _).trans less
      · apply (find_setBucket t key _ other).trans
        rw [Bucket.find_store]
        by_cases same : other = key
        · simp [same]
        · rw [if_neg same, if_neg same]
          split_ifs with bucket
          · rw [find, bucketOf_eq, bucket]
          · rfl
    · have here : ∃ n, t.select n = t.select (hash key) := ⟨hash key, rfl⟩
      obtain ⟨after, finds⟩ := ih (inv.split here) ran
      refine ⟨after, fun other => ?_⟩
      rw [finds, inv.find_split here]

/-- `Remove`. -/
theorem Inv.remove (inv : t.Inv hash) (key : K) : (t.remove hash key).1 = (t.find hash key).isSome ∧
    (t.remove hash key).2.Inv hash ∧
      ∀ other, (t.remove hash key).2.find hash other = if other = key then none else t.find hash other := by
  have found : t.find hash key = (t.bucket (t.select (hash key))).find key := by rw [find, bucketOf_eq]
  unfold ExtendibleHash.remove
  dsimp only
  rw [bucketOf_eq]
  split_ifs with member
  · refine ⟨?_, inv.setBucket (t.select (hash key)) rfl (fun other inside => ?_) ?_, fun other => ?_⟩
    · rw [found, Bucket.find, if_pos member]
      rfl
    · exact inv.placed _ other (Finset.mem_of_mem_erase inside)
    · exact (Finset.card_erase_le).trans (inv.small _)
    · apply (find_setBucket t key _ other).trans
      rw [Bucket.find_erase]
      by_cases same : other = key
      · simp [same]
      · rw [if_neg same, if_neg same]
        split_ifs with bucket
        · rw [find, bucketOf_eq, bucket]
        · rfl
  · have absent : t.find hash key = none := by rw [found, Bucket.find, if_neg member]
    refine ⟨by rw [absent]; rfl, inv, fun other => ?_⟩
    split_ifs with same
    · rw [same, absent]
    · rfl

/-- A table and the map it stands for. -/
abbrev State (K V : Type) := ExtendibleHash K V × Finmap fun _ : K => V

/-- `ExtendibleHash(size)`, empty. -/
def Init [Inhabited V] (s : State K V) : Prop := ∃ size ≥ 1, s = (new size, ∅)

/-- A call of `Insert` that returns, with fewer than 31 bits in use, or of `Remove`; `Find` changes nothing. -/
inductive Step (hash : K → ℕ) : State K V → State K V → Prop
  | insert {t t' : ExtendibleHash K V} {map : Finmap fun _ : K => V} {fuel : ℕ} {key : K} {value : V}
      (ran : t.insert hash fuel key value = .ok t') (shallow : t'.globalDepth < 31) :
      Step hash (t, map) (t', map.insert key value)
  | remove (t : ExtendibleHash K V) (map : Finmap fun _ : K => V) (key : K) :
      Step hash (t, map) ((t.remove hash key).2, map.erase key)

/-- In every run the table stays well formed, and answers as the map does. -/
theorem extendible_hash_refines [Inhabited V] {map : Finmap fun _ : K => V}
    (run : Machine.Reach Init (Step hash) (t, map)) : t.WellFormed hash ∧
      (∀ key, t.find hash key = map.lookup key) ∧ ∀ key, (t.remove hash key).1 = (map.lookup key).isSome := by
  have holds := @Machine.Reach.invariant _ _ _
    (fun s : State K V => s.1.Inv hash ∧ ∀ key, s.1.find hash key = s.2.lookup key)
    (fun s start => by
      obtain ⟨size, _, rfl⟩ := start
      refine ⟨inv_new size, fun key => ?_⟩
      rw [Finmap.lookup_empty]
      rfl)
    (fun s s' before step => by
      cases step with
      | insert ran shallow =>
        obtain ⟨inv, finds⟩ := before
        obtain ⟨inv', finds'⟩ := inv.insert ran
        refine ⟨inv', fun other => ?_⟩
        dsimp only
        rw [finds' other]
        split_ifs with same
        · rw [same, Finmap.lookup_insert]
        · rw [Finmap.lookup_insert_of_ne _ same, finds]
      | remove t map key =>
        obtain ⟨inv, finds⟩ := before
        obtain ⟨_, inv', finds'⟩ := inv.remove key
        refine ⟨inv', fun other => ?_⟩
        dsimp only
        rw [finds' other]
        split_ifs with same
        · rw [same, Finmap.lookup_erase]
        · rw [Finmap.lookup_erase_ne same, finds]) (t, map) run
  obtain ⟨inv, finds⟩ := holds
  refine ⟨inv.wellFormed, finds, fun key => ?_⟩
  rw [(inv.remove key).1, finds]

/-- Two keys in buckets of one: the second one splits the bucket of the first. -/
theorem extendible_hash_refines_twoKeys : ∃ t : ExtendibleHash ℕ ℕ, t.bucketNum = 2 ∧ t.WellFormed id ∧
    (∀ key, t.find id key = (((∅ : Finmap fun _ : ℕ => ℕ).insert 0 5).insert 1 6).lookup key) ∧
      ∀ key, (t.remove id key).1 = ((((∅ : Finmap fun _ : ℕ => ℕ).insert 0 5).insert 1 6).lookup key).isSome := by
  have start : Machine.Reach Init (Step id) ((new 1 : ExtendibleHash ℕ ℕ), ∅) := .init ⟨1, le_rfl, rfl⟩
  have first := start.step (@Step.insert _ _ _ id _ _ _ 1 0 5 rfl (by decide))
  have second := first.step (@Step.insert _ _ _ id _ _ _ 2 1 6 rfl (by decide))
  exact ⟨_, rfl, extendible_hash_refines second⟩

end ExtendibleHash

end Gbp
