import GraphBufferPool.Indexer.IdIndexer
import GraphBufferPool.Lib.Outcome
import GraphBufferPool.Lib.Reach
import GraphBufferPool.Lib.RobinHood

/-! # Runs of an `IdIndexer`

The table holds the indices of the keys, ordered by their distances, in the slots before its end marker. Every access
to the vectors is inside them, a lookup finds exactly the keys that were added, and growth, which may start again from
within a `rehash`, brings all keys into the new table.
-/

namespace Gbp.IdIndexer

open Function Machine RobinHood

variable {K : Type} [DecidableEq K] {hash : Hashing K} {s : IdIndexer K}

/-- The slots before the end marker. -/
def table (s : IdIndexer K) : Table ℕ := ⟨s.distances, s.indices, s.entryNum - 1⟩

/-- The home of the key with an index. -/
def homeOf (hash : Hashing K) (s : IdIndexer K) (lid : ℕ) : ℕ := s.keys[lid]?.elim 0 (s.home hash)

/-- Both vectors reach to the last slot that an item may lie in, and one further. -/
structure Shape (hash : Hashing K) (s : IdIndexer K) : Prop where
  entryNum : s.entryNum = s.numSlotsMinusOne + 1 + s.maxLookups
  lookups : 0 < s.maxLookups
  fits : s.entryNum ≤ maxEntries
  bound : ∀ oid, s.home hash oid ≤ s.numSlotsMinusOne
  ordered : Ordered (s.homeOf hash) s.table
  marker : s.distances (s.entryNum - 1) = 0
  short : ∀ i < s.entryNum - 1, s.distances i < s.maxLookups

/-- The table holds the indices that are present. -/
structure Inv (hash : Hashing K) (present : Finset ℕ) (s : IdIndexer K) : Prop extends Shape hash s where
  once : s.table.Once
  holds : ∀ lid, s.table.Holds lid ↔ lid ∈ present
  keyed : ∀ lid ∈ present, lid < s.keys.length
  counted : s.numElements = present.card
  load : 2 * s.numElements ≤ s.numSlotsMinusOne + 1

/-- A lookup from a home has come to a slot: the slots before it are no closer, and none was a hit. -/
structure Passed (s : IdIndexer K) (hit : ℕ → Except Stop Bool) (start index : ℕ) : Prop where
  from_home : start ≤ index
  distance : ∀ j, start ≤ j → j < index → (j : ℤ) - start ≤ s.distances j
  missed : ∀ j, start ≤ j → j < index → hit (s.indices j) = .ok false

/-- A lookup from a home finds a hit in a slot. -/
structure Found (s : IdIndexer K) (hit : ℕ → Except Stop Bool) (start index : ℕ) : Prop extends
    Passed s hit start index where
  inside : index < s.entryNum - 1
  used : 0 ≤ s.distances index
  hits : hit (s.indices index) = .ok true

/-- A lookup from a home ends at a slot. -/
structure Stopped (s : IdIndexer K) (hit : ℕ → Except Stop Bool) (start index : ℕ) : Prop extends
    Passed s hit start index where
  inside : index < s.entryNum
  closer : s.distances index < (index : ℤ) - start

section lookups

variable {hit : ℕ → Except Stop Bool} {start index : ℕ} {distance : ℤ} {present : Finset ℕ} {lid : ℕ} {oid : K}

omit [DecidableEq K] in
theorem homeOf_of_getElem? (here : s.keys[lid]? = some oid) : s.homeOf hash lid = s.home hash oid := by
  rw [homeOf, here]
  rfl

omit [DecidableEq K] in
theorem Shape.homeOf_le (shape : Shape hash s) (lid : ℕ) : s.homeOf hash lid ≤ s.numSlotsMinusOne := by
  rw [homeOf]
  cases s.keys[lid]? with
  | none => exact Nat.zero_le _
  | some oid => exact shape.bound oid

omit [DecidableEq K] in
/-- A lookup does not pass the end marker. -/
theorem Shape.before_marker (shape : Shape hash s) (passed : Passed s hit start index) (bound : start ≤ s.numSlotsMinusOne) :
    index ≤ s.entryNum - 1 := by
  have entryNum := shape.entryNum
  have lookups := shape.lookups
  by_contra beyond
  have marker := passed.distance (s.entryNum - 1) (by omega) (by omega)
  rw [shape.marker] at marker
  omega

omit [DecidableEq K] in
theorem Shape.lookupFrom (shape : Shape hash s) (bound : start ≤ s.numSlotsMinusOne)
    (answers : ∀ lid, s.table.Holds lid → ∃ b, hit lid = .ok b) {n : ℕ} (left : n = s.entryNum - index)
    (place : start + distance = index) (passed : Passed s hit start index) :
    (∃ last, Found s hit start last ∧ s.lookupFrom hit n index distance = .ok (.found last (s.indices last))) ∨
      ∃ last, Stopped s hit start last ∧
        s.lookupFrom hit n index distance = .ok (.stopped last ((last : ℤ) - start)) := by
  have entryNum := shape.entryNum
  have below := shape.before_marker passed bound
  induction n generalizing index distance with
  | zero => omega
  | succ n ih =>
    rw [IdIndexer.lookupFrom]
    split_ifs with near
    · -- The slot is before the end marker, whose distance is 0.
      have inside : index < s.entryNum - 1 := by
        rcases Nat.lt_or_eq_of_le below with inside | here
        · exact inside
        · have lookups := shape.lookups
          have marker := shape.marker
          rw [← here] at marker
          omega
      have from_home := passed.from_home
      have holds : s.table.Holds (s.indices index) := ⟨index, inside, by change 0 ≤ s.distances index; omega, rfl⟩
      obtain ⟨b, answer⟩ := answers _ holds
      rw [answer]
      cases b with
      | true => exact Or.inl ⟨index, ⟨passed, inside, by omega, answer⟩, rfl⟩
      | false =>
        apply ih (by omega) (by push_cast; omega) _ (by omega)
        refine ⟨by omega, fun j from_start before => ?_, fun j from_start before => ?_⟩
        · rcases Nat.lt_succ_iff_lt_or_eq.mp before with earlier | rfl
          · exact passed.distance j from_start earlier
          · omega
        · rcases Nat.lt_succ_iff_lt_or_eq.mp before with earlier | rfl
          · exact passed.missed j from_start earlier
          · exact answer
    · refine Or.inr ⟨index, ⟨passed, by omega, by omega⟩, ?_⟩
      rw [show distance = (index : ℤ) - start by omega]

omit [DecidableEq K] in
/-- A lookup finds a hit or ends at a slot. -/
theorem Shape.lookup (shape : Shape hash s) (bound : start ≤ s.numSlotsMinusOne) (hit : ℕ → Except Stop Bool)
    (answers : ∀ lid, s.table.Holds lid → ∃ b, hit lid = .ok b) :
    (∃ last, Found s hit start last ∧ s.lookup hit start = .ok (.found last (s.indices last))) ∨
      ∃ last, Stopped s hit start last ∧ s.lookup hit start = .ok (.stopped last ((last : ℤ) - start)) :=
  shape.lookupFrom bound answers rfl (by simp) ⟨le_rfl, fun j _ _ => by omega, fun j _ _ => by omega⟩

omit [DecidableEq K] in
theorem Found.holds (found : Found s hit start index) : s.table.Holds (s.indices index) :=
  ⟨index, found.inside, found.used, rfl⟩

omit [DecidableEq K] in
/-- A lookup that ends at a slot has passed every item with its home. -/
theorem Stopped.missed_of_home (stopped : Stopped s hit start index) (shape : Shape hash s) (holds : s.table.Holds lid)
    (same : s.homeOf hash lid = start) : hit lid = .ok false := by
  obtain ⟨i, below, rfl, from_home, near⟩ := shape.ordered.found holds
  rw [same] at from_home near
  apply stopped.missed i from_home
  by_contra beyond
  have here := near index stopped.from_home (by omega)
  have closer := stopped.closer
  change (index : ℤ) - start ≤ s.distances index at here
  omega

omit [DecidableEq K] in
theorem Stopped.carried (stopped : Stopped s hit start index) (shape : Shape hash s)
    (same : s.homeOf hash lid = start) : Carried (s.homeOf hash) s.table lid index ((index : ℤ) - start) where
  place := by
    rw [same]
    omega
  nonneg := by
    have := stopped.from_home
    omega
  fits := by
    intro j next
    change (index : ℤ) - start ≤ s.distances j + 1
    have from_home := stopped.from_home
    have inside := stopped.inside
    rcases Nat.lt_or_ge j start with before | after
    · have := shape.ordered.free j (show j < s.entryNum - 1 by omega)
      change -1 ≤ s.distances j at this
      omega
    · have := stopped.distance j after (by omega)
      omega

omit [DecidableEq K] in
/-- No item lies further from its home than the table looks. -/
theorem Stopped.short (stopped : Stopped s hit start index) (shape : Shape hash s) (bound : start ≤ s.numSlotsMinusOne) :
    (index : ℤ) - start ≤ s.maxLookups := by
  have below := shape.before_marker stopped.toPassed bound
  have from_home := stopped.from_home
  have inside := stopped.inside
  rcases Nat.lt_or_eq_of_le from_home with after | rfl
  · have distance := stopped.distance (index - 1) (by omega) (by omega)
    have short := shape.short (index - 1) (by omega)
    omega
  · omega

end lookups

section insertion

variable {index lid : ℕ} {distance : ℤ} {present : Finset ℕ}

omit [DecidableEq K] in
theorem Shape.write (shape : Shape hash s) (carried : Carried (s.homeOf hash) s.table lid index distance)
    (inside : index < s.entryNum - 1) (closer : s.distances index < distance) (short : distance < s.maxLookups) :
    Shape hash (s.write index distance lid) where
  entryNum := shape.entryNum
  lookups := shape.lookups
  fits := shape.fits
  bound := shape.bound
  ordered := shape.ordered.put carried closer
  marker := (update_of_ne (show s.entryNum - 1 ≠ index by omega) ..).trans shape.marker
  short := by
    intro i below
    rcases eq_or_ne i index with rfl | apart
    · exact (update_self i distance s.distances).trans_lt short
    · exact (update_of_ne apart distance s.distances).trans_lt (shape.short i below)

omit [DecidableEq K] in
theorem holds_write_iff (inside : index < s.entryNum - 1) (free : s.distances index < 0) (nonneg : 0 ≤ distance) (y : ℕ) :
    (s.write index distance lid).table.Holds y ↔ s.table.Holds y ∨ y = lid :=
  @Table.holds_put_iff _ s.table index distance lid inside free nonneg y

omit [DecidableEq K] in
theorem holds_write_or (inside : index < s.entryNum - 1) (used : 0 ≤ s.distances index) (nonneg : 0 ≤ distance) (y : ℕ) :
    (s.write index distance lid).table.Holds y ∨ y = s.indices index ↔ s.table.Holds y ∨ y = lid :=
  @Table.holds_put_or _ s.table index distance lid inside used nonneg y

omit [DecidableEq K] in
theorem carried_write (carried : Carried (s.homeOf hash) s.table lid index distance) (ordered : Ordered (s.homeOf hash) s.table)
    (inside : index < s.entryNum - 1) (used : 0 ≤ s.distances index) (closer : s.distances index < distance) :
    Carried (s.homeOf hash) (s.write index distance lid).table (s.indices index) (index + 1) (s.distances index + 1) :=
  carried.swap ordered inside used closer

omit [DecidableEq K] in
theorem Shape.inside (shape : Shape hash s) (carried : Carried (s.homeOf hash) s.table lid index distance)
    (short : distance < s.maxLookups) : index < s.entryNum - 1 := by
  have place := carried.place
  have bound := shape.homeOf_le lid
  have entryNum := shape.entryNum
  omega

omit [DecidableEq K] in
/-- The table is small enough to double it. -/
def Sized (s : IdIndexer K) : Prop := s.numSlotsMinusOne < maxEntries ∧ 2 * s.numElements ≤ maxEntries

omit [DecidableEq K] in
theorem Inv.sized (inv : Inv hash present s) : s.Sized := by
  have entryNum := inv.entryNum
  have fits := inv.fits
  have load := inv.load
  exact ⟨by omega, by omega⟩

omit [DecidableEq K] in
/-- The loop of `emplace_new_value` ends with all items and the carried one in the table, or asks for a larger one. -/
theorem Shape.displace (shape : Shape hash s) {n : ℕ} (left : n = s.entryNum - index)
    (carried : Carried (s.homeOf hash) s.table lid index distance) (short : distance < s.maxLookups)
    (once : s.table.Once) (fresh : ¬ s.table.Holds lid) (holds : ∀ y, s.table.Holds y ∨ y = lid ↔ y ∈ present)
    (sized : s.Sized) : ∃ ended s', IdIndexer.displace n s distance index lid = .ok (ended, s') ∧ s'.keys = s.keys ∧
      (ended = false → s'.Sized) ∧ (ended = true →
      Shape hash s' ∧ s'.table.Once ∧ (∀ y, s'.table.Holds y ↔ y ∈ present) ∧ s'.numElements = s.numElements + 1 ∧
        s'.numSlotsMinusOne = s.numSlotsMinusOne) := by
  have inside := shape.inside carried short
  induction n generalizing s index lid distance with
  | zero => omega
  | succ n ih =>
    rw [IdIndexer.displace]
    split_ifs with free closer far
    · have closer := free.trans_le carried.nonneg
      have written := shape.write carried inside closer short
      refine ⟨true, _, rfl, rfl, nofun, fun _ => ⟨⟨written.entryNum, written.lookups, written.fits, written.bound,
        written.ordered, written.marker, written.short⟩, once.put fresh, fun y => ?_, rfl, rfl⟩⟩
      exact (holds_write_iff inside free carried.nonneg y).trans (holds y)
    · have used : 0 ≤ s.distances index := by omega
      have written := shape.write carried inside closer short
      have next := carried_write carried shape.ordered inside used closer
      have short' : s.distances index + 1 < s.maxLookups := by omega
      exact ih written (show n = s.entryNum - (index + 1) by omega) next short' (once.put fresh)
        (once.not_holds_put fresh inside used) (fun y => (holds_write_or inside used carried.nonneg y).trans (holds y)) sized
        (written.inside next short')
    · exact ⟨false, s, rfl, rfl, fun _ => sized, nofun⟩
    · have next := carried.pass (show distance ≤ s.distances index by omega)
      have short' : distance + 1 < s.maxLookups := by omega
      exact ih shape (by omega) next short' once fresh holds sized (shape.inside next short')

/-- A call that has no fuel or no memory left does not return. -/
def Exhausted (stop : Stop) : Prop := stop = .outOfFuel ∨ stop = .outOfMemory

/-- How a call that may grow the table ends: exhausted, or with the same keys and the property. -/
abbrev Grows (s : IdIndexer K) (P : IdIndexer K → Prop) : Except Stop (IdIndexer K) → Prop :=
  Ends Exhausted fun s' => s'.keys = s.keys ∧ P s'

/-- A table with all keys. -/
abbrev Full (hash : Hashing K) (s : IdIndexer K) : Prop := Inv hash (Finset.range s.keys.length) s

omit [DecidableEq K] in
/-- `emplace_new_value` of an index that no lookup found. -/
theorem Inv.emplaceNewValue (inv : Inv hash present s) (grow : IdIndexer K → Except Stop (IdIndexer K))
    (grows : ∀ s' : IdIndexer K, s'.keys = s.keys → s'.Sized → Grows s' (Full hash) (grow s')) {hit : ℕ → Except Stop Bool}
    (stopped : Stopped s hit (s.homeOf hash lid) index) (keyed : lid < s.keys.length) (fresh : lid ∉ present) :
    Grows s (fun s' => Inv hash (insert lid present) s' ∨ Full hash s')
      (s.emplaceNewValue grow ((index : ℤ) - s.homeOf hash lid) index lid) := by
  have bound := inv.homeOf_le lid
  have carried := stopped.carried inv.toShape rfl
  have closer := stopped.closer
  have absent : ¬ s.table.Holds lid := fun holds => fresh ((inv.holds lid).mp holds)
  have regrows (s' : IdIndexer K) (same : s'.keys = s.keys) (sized : s'.Sized) : Grows s
      (fun s' => Inv hash (insert lid present) s' ∨ Full hash s') (grow s') := by
    apply (grows s' same sized).mono
    rintro s'' ⟨same', full⟩
    exact ⟨same'.trans same, Or.inr full⟩
  have keyed' (y : ℕ) (member : y ∈ insert lid present) : y < s.keys.length := by
    rcases Finset.mem_insert.mp member with rfl | before
    · exact keyed
    · exact inv.keyed y before
  have counted : (insert lid present).card = s.numElements + 1 := by
    rw [Finset.card_insert_of_notMem fresh, inv.counted]
  rw [IdIndexer.emplaceNewValue]
  split_ifs with full outside free
  · exact regrows s rfl inv.sized
  · exact absurd stopped.inside (by omega)
  all_goals
    obtain ⟨_, notFar, room⟩ := not_or.mp full |>.imp_right not_or.mp
    have short : (index : ℤ) - s.homeOf hash lid < s.maxLookups :=
      lt_of_le_of_ne (stopped.short inv.toShape bound) notFar
    have inside := inv.inside carried short
    have written := inv.toShape.write carried inside closer short
  · refine ⟨rfl, Or.inl ⟨⟨written.entryNum, written.lookups, written.fits, written.bound, written.ordered, written.marker,
      written.short⟩, inv.once.put absent, fun y => ?_, keyed', counted.symm, ?_⟩⟩
    · rw [Finset.mem_insert, ← inv.holds y, or_comm]
      exact holds_write_iff inside free carried.nonneg y
    · change 2 * (s.numElements + 1) ≤ s.numSlotsMinusOne + 1
      omega
  · have used : 0 ≤ s.distances index := by omega
    have holds (y : ℕ) : (s.write index ((index : ℤ) - s.homeOf hash lid) lid).table.Holds y ∨ y = s.indices index ↔
        y ∈ insert lid present := by
      rw [Finset.mem_insert, ← inv.holds y, holds_write_or inside used carried.nonneg, or_comm]
    obtain ⟨ended, s', ran, same, sized, after⟩ := written.displace (show s.entryNum - (index + 1) = _ from rfl)
      (carried_write carried inv.ordered inside used closer) (by change s.distances index + 1 < s.maxLookups; omega)
      (inv.once.put absent) (inv.once.not_holds_put absent inside used) holds inv.sized
    rw [ran]
    cases ended with
    | false => exact regrows s' same (sized rfl)
    | true =>
      obtain ⟨shape, once, holds', count, slots⟩ := after rfl
      refine ⟨same, Or.inl ⟨shape, once, holds', fun y member => ?_, by rw [count, counted]; rfl, ?_⟩⟩
      · rw [same]
        exact keyed' y member
      · rw [count, slots]
        change 2 * (s.numElements + 1) ≤ s.numSlotsMinusOne + 1
        omega

end insertion

section growth

variable {present : Finset ℕ} {w n : ℕ}

omit [DecidableEq K] in
/-- A table in which only the end marker is set. -/
theorem inv_of_empty (entryNum : s.entryNum = s.numSlotsMinusOne + 1 + s.maxLookups) (lookups : 0 < s.maxLookups)
    (fits : s.entryNum ≤ maxEntries) (bound : ∀ oid, s.home hash oid ≤ s.numSlotsMinusOne) (marker : s.distances (s.entryNum - 1) = 0)
    (free : ∀ i < s.entryNum - 1, s.distances i = -1) (none : s.numElements = 0) : Inv hash ∅ s where
  entryNum := entryNum
  lookups := lookups
  fits := fits
  bound := bound
  ordered := by
    constructor
    · intro i below
      exact (free i below).ge
    · intro i below used
      exact absurd (free i below) (used.trans_lt' (by decide)).ne'
    · intro i below
      change s.distances (i + 1) ≤ s.distances i + 1
      rw [free _ below, free i (Nat.lt_of_succ_lt below)]
      decide
  marker := marker
  short := by
    intro i below
    rw [free i below]
    omega
  once := by
    intro i j below _ used
    exact absurd (free i below) (used.trans_lt' (by decide)).ne'
  holds := by
    intro lid
    refine ⟨?_, by simp⟩
    rintro ⟨i, below, used, _⟩
    exact absurd (free i below) (used.trans_lt' (by decide)).ne'
  keyed := by simp
  counted := none
  load := by omega

omit [DecidableEq K] in
theorem full_reset : Full hash (resetToEmptyState : IdIndexer K) := by
  rw [Full, show Finset.range (resetToEmptyState : IdIndexer K).keys.length = ∅ from rfl]
  apply inv_of_empty
  · rfl
  · exact Nat.succ_pos 2
  · exact (by decide : minLookups ≤ maxEntries)
  · exact fun oid => (hash.indexForHash_reset _).le
  · rfl
  · intro i below
    exact if_neg (by exact below.ne)
  · rfl

theorem log2_lt (n : ℕ) : log2 n < 64 := by
  have table : ∀ value ∈ log2Table, value < 64 := by decide
  have entry (i : ℕ) : log2Table.getD i 0 < 64 := by
    rw [List.getD_eq_getElem?_getD]
    cases here : log2Table[i]? with
    | none => decide
    | some value => exact table value (List.mem_of_getElem? here)
  exact entry _

omit [DecidableEq K] in
/-- A new table, where the sizes of its vectors do not wrap. -/
theorem inv_cleared (positive : 0 < n) (small : n < 2 ^ 63) (fits : (s.cleared n).entryNum ≤ maxEntries) :
    Inv hash ∅ (s.cleared n) := by
  have lookups : 0 < computeMaxLookups n := lt_of_lt_of_le (by decide) (le_max_left minLookups (log2 n))
  have few : computeMaxLookups n < 64 := max_lt (by decide) (log2_lt n)
  have size : (s.cleared n).entryNum = n + computeMaxLookups n := Nat.mod_eq_of_lt (by omega)
  have last : (n + computeMaxLookups n + (2 ^ 64 - 1)) % 2 ^ 64 = n + computeMaxLookups n - 1 := by omega
  have marks (i : ℕ) : (s.cleared n).distances i = if i = n + computeMaxLookups n - 1 then 0 else -1 := by
    rw [← last]
    rfl
  apply inv_of_empty
  · rw [size]
    change n + computeMaxLookups n = n - 1 + 1 + computeMaxLookups n
    omega
  · exact lookups
  · exact fits
  · intro oid
    have := hash.indexForHash_lt n (hash.hasher oid) positive
    change hash.indexForHash n (hash.hasher oid) ≤ n - 1
    omega
  · rw [marks, size]
    exact if_pos rfl
  · intro i below
    rw [size] at below
    rw [marks]
    exact if_neg below.ne
  · rfl

omit [DecidableEq K] in
theorem Inv.emplace (inv : Inv hash present s) {grow : IdIndexer K → Except Stop (IdIndexer K)}
    (grows : ∀ s' : IdIndexer K, s'.keys = s.keys → s'.Sized → Grows s' (Full hash) (grow s')) {lid : ℕ}
    (keyed : lid < s.keys.length) :
    Grows s (fun s' => Inv hash (insert lid present) s' ∨ Full hash s') (s.emplace hash grow lid) := by
  obtain ⟨key, here⟩ : ∃ key, s.keys[lid]? = some key := ⟨_, List.getElem?_eq_getElem keyed⟩
  have place : s.homeOf hash lid = s.home hash key := homeOf_of_getElem? here
  rw [IdIndexer.emplace, here]
  rcases inv.lookup (inv.bound key) (fun cur => .ok (cur = lid)) fun _ _ => ⟨_, rfl⟩ with
    ⟨index, found, ran⟩ | ⟨index, stopped, ran⟩
  · obtain rfl : s.indices index = lid := by simpa using found.hits
    simp only [ran, ok_bind]
    refine ⟨rfl, Or.inl ?_⟩
    rwa [Finset.insert_eq_of_mem ((inv.holds _).mp found.holds)]
  · simp only [ran, ok_bind]
    rw [← place] at stopped ⊢
    apply inv.emplaceNewValue grow grows stopped keyed
    intro member
    have missed := stopped.missed_of_home inv.toShape ((inv.holds lid).mpr member) rfl
    simp at missed

omit [DecidableEq K] in
/-- What `rehash` needs of the `grow` that it may call: the same of smaller fuel. -/
theorem grows_rehash {grow : IdIndexer K → Except Stop (IdIndexer K)} (small : s.keys.length < 2 ^ w)
    (grows : ∀ s' : IdIndexer K, s'.keys = s.keys → s'.Sized → Grows s' (Full hash) (grow s')) (sized : s.Sized)
    (bound : n < 2 ^ 54)
    (full : (max n (2 * s.numElements) = 0 → s.keys = []) ∧
      (hash.nextSizeOver (max n (2 * s.numElements)) = s.bucketCount → Full hash s)) :
    Grows s (Full hash) (s.rehash hash w grow n) := by
  rw [IdIndexer.rehash]
  dsimp only
  split_ifs with none same large
  · rw [Grows, Ends, full.1 none]
    exact ⟨rfl, full_reset⟩
  · exact ⟨rfl, full.2 same⟩
  · exact Or.inr rfl
  · have positive : 0 < hash.nextSizeOver (max n (2 * s.numElements)) :=
      (Nat.pos_of_ne_zero none).trans_le (hash.le_nextSizeOver _)
    have few := sized.2
    have wraps := hash.nextSizeOver_lt (max n (2 * s.numElements)) (by unfold maxEntries at few; omega)
    rw [Nat.mod_eq_of_lt small]
    have ran := @Ends.foldlM_range _ _ Exhausted (IdIndexer.emplace hash grow)
      (fun k s' => s'.keys = s.keys ∧ ∃ present, Inv hash present s' ∧ Finset.range k ⊆ present) s.keys.length
      (fun k below s' ⟨same, present, inv, before⟩ => by
        have step := inv.emplace (fun s'' same' => grows s'' (same'.trans same)) (show k < s'.keys.length by rwa [same])
        apply step.mono
        rintro s'' ⟨same', inv' | inv'⟩
        · refine ⟨same'.trans same, _, inv', ?_⟩
          rw [Finset.range_add_one]
          exact Finset.insert_subset_insert k before
        · refine ⟨same'.trans same, _, inv', ?_⟩
          rw [same', same]
          exact Finset.range_subset_range.mpr below)
      (s.cleared _) ⟨rfl, ∅, inv_cleared positive wraps (Nat.le_of_not_lt large), by simp⟩
    apply ran.mono
    rintro s' ⟨same, present, inv, before⟩
    refine ⟨same, ?_⟩
    obtain rfl : present = Finset.range s'.keys.length := by
      apply Finset.Subset.antisymm
      · intro lid member
        exact Finset.mem_range.mpr (inv.keyed lid member)
      · rwa [same]
    exact inv

omit [DecidableEq K] in
/-- `grow` brings all keys into a larger table. -/
theorem grows_grow (fuel : ℕ) (s : IdIndexer K) (small : s.keys.length < 2 ^ w) (sized : s.Sized) :
    Grows s (Full hash) (grow hash w fuel s) := by
  induction fuel generalizing s with
  | zero => exact Or.inl rfl
  | succ fuel ih =>
    rw [grow]
    apply grows_rehash small (fun s' same => ih s' (by rwa [same])) sized
    · have slots := sized.1
      unfold maxEntries at slots
      unfold bucketCount
      split_ifs <;> omega
    · have larger := hash.le_nextSizeOver (max (max 4 (2 * s.bucketCount)) (2 * s.numElements))
      have four := le_max_left 4 (2 * s.bucketCount)
      have twice := le_max_right 4 (2 * s.bucketCount)
      have least := le_max_left (max 4 (2 * s.bucketCount)) (2 * s.numElements)
      constructor
      · intro none
        omega
      · intro same
        omega

end growth

section calls

variable {w fuel n : ℕ} {oid : K} {lid : ℕ}

theorem keyIs_of_getElem? {key : K} (here : s.keys[lid]? = some key) : s.keyIs oid lid = .ok (key = oid) := by
  rw [keyIs, here]

/-- The lookup of a key. -/
theorem Full.lookup (full : Full hash s) (oid : K) :
    (∃ last, Found s (s.keyIs oid) (s.home hash oid) last ∧ s.keys[s.indices last]? = some oid ∧
        s.lookup (s.keyIs oid) (s.home hash oid) = .ok (.found last (s.indices last))) ∨
      oid ∉ s.keys ∧ ∃ last, Stopped s (s.keyIs oid) (s.home hash oid) last ∧
        s.lookup (s.keyIs oid) (s.home hash oid) = .ok (.stopped last ((last : ℤ) - s.home hash oid)) := by
  have keyed (lid : ℕ) (holds : s.table.Holds lid) : ∃ key, s.keys[lid]? = some key :=
    ⟨_, List.getElem?_eq_getElem (full.keyed lid ((full.holds lid).mp holds))⟩
  rcases full.toShape.lookup (full.bound oid) (s.keyIs oid) fun lid holds => by
      obtain ⟨key, here⟩ := keyed lid holds
      exact ⟨_, keyIs_of_getElem? here⟩ with
    ⟨last, found, ran⟩ | ⟨last, stopped, ran⟩
  · obtain ⟨key, here⟩ := keyed _ found.holds
    obtain rfl : key = oid := by simpa [keyIs_of_getElem? here] using found.hits
    exact Or.inl ⟨last, found, here, ran⟩
  · refine Or.inr ⟨fun member => ?_, last, stopped, ran⟩
    obtain ⟨lid, inside, here⟩ := List.mem_iff_getElem.mp member
    have here : s.keys[lid]? = some oid := (List.getElem?_eq_getElem inside).trans (congrArg some here)
    have holds := (full.holds lid).mpr (Finset.mem_range.mpr inside)
    have missed := stopped.missed_of_home full.toShape holds (homeOf_of_getElem? here)
    simp [keyIs_of_getElem? here] at missed

theorem idxOf_of_getElem? {keys : List K} (distinct : keys.Nodup) (here : keys[lid]? = some oid) : keys.idxOf oid = lid := by
  obtain ⟨inside, rfl⟩ := List.getElem?_eq_some_iff.mp here
  exact distinct.idxOf_getElem lid inside

theorem Full.getIndex (full : Full hash s) (distinct : s.keys.Nodup) (oid : K) :
    s.getIndex hash oid = .ok (if oid ∈ s.keys then some (s.keys.idxOf oid) else none) := by
  rw [IdIndexer.getIndex]
  rcases full.lookup oid with ⟨last, _, here, ran⟩ | ⟨missing, last, _, ran⟩
  · rw [ran, if_pos (List.mem_of_getElem? here), idxOf_of_getElem? distinct here]
    rfl
  · rw [ran, if_neg missing]
    rfl

omit [DecidableEq K] in
theorem Full.getKey (full : Full hash s) (lid : ℕ) : s.getKey lid = s.keys[lid]? := by
  rw [IdIndexer.getKey, full.counted, Finset.card_range]
  split_ifs with beyond
  · exact (List.getElem?_eq_none beyond).symm
  · rfl

omit [DecidableEq K] in
/-- A key that is not in the table yet. -/
theorem Full.push (full : Full hash s) (oid : K) :
    Inv hash (Finset.range s.keys.length) { s with keys := s.keys ++ [oid] } where
  entryNum := full.entryNum
  lookups := full.lookups
  fits := full.fits
  bound := full.bound
  ordered := by
    apply full.ordered.congr
    intro lid holds
    have keyed := full.keyed lid ((full.holds lid).mp holds)
    simp only [homeOf, List.getElem?_append_left keyed]
    rfl
  marker := full.marker
  short := full.short
  once := full.once
  holds := full.holds
  keyed := by
    intro lid member
    have := full.keyed lid member
    simp only [List.length_append, List.length_singleton]
    omega
  counted := full.counted
  load := full.load

/-- The keys after an `add`. -/
def addKey (keys : List K) (oid : K) : List K := if oid ∈ keys then keys else keys ++ [oid]

/-- An `add` reports the place of the key, and whether the key is new, and keeps the table full. -/
theorem Full.add (full : Full hash s) (distinct : s.keys.Nodup) (small : s.keys.length + 1 < 2 ^ w) (fuel : ℕ) (oid : K) :
    Ends Exhausted (fun r => r.1 = decide (oid ∉ s.keys) ∧ r.2.1 = s.keys.idxOf oid ∧
      r.2.2.keys = addKey s.keys oid ∧ Full hash r.2.2) (s.add hash w fuel oid) := by
  rw [IdIndexer.add]
  rcases full.lookup oid with ⟨last, _, here, ran⟩ | ⟨missing, last, stopped, ran⟩
  · have member := List.mem_of_getElem? here
    rw [ran]
    exact ⟨by simp [member], (idxOf_of_getElem? distinct here).symm, (if_pos member).symm, full⟩
  · rw [ran, ok_bind]
    dsimp only
    rw [Nat.mod_eq_of_lt (by omega)]
    have place : homeOf hash { s with keys := s.keys ++ [oid] } s.keys.length = s.home hash oid :=
      homeOf_of_getElem? List.getElem?_concat_length
    have pushed : (s.keys ++ [oid]).length = s.keys.length + 1 := by simp
    have stopped' : Stopped { s with keys := s.keys ++ [oid] } (s.keyIs oid)
        (homeOf hash { s with keys := s.keys ++ [oid] } s.keys.length) last := by
      rw [place]
      exact ⟨⟨stopped.from_home, stopped.distance, stopped.missed⟩, stopped.inside, stopped.closer⟩
    have ends := (full.push oid).emplaceNewValue (grow hash w fuel)
      (fun s' same sized => grows_grow fuel s' (by rw [same]; change (s.keys ++ [oid]).length < _; omega) sized) stopped'
      (show s.keys.length < (s.keys ++ [oid]).length by omega) (by simp)
    rw [place] at ends
    apply ends.bind
    rintro s' ⟨same, inv⟩
    refine ⟨by simp [missing], (List.idxOf_eq_length missing).symm, same.trans (if_neg missing).symm, ?_⟩
    rcases inv with inv | inv
    · rwa [Full, same, pushed, Finset.range_add_one]
    · exact inv

omit [DecidableEq K] in
theorem Full.rehashInt (full : Full hash s) (small : s.keys.length < 2 ^ w) (fuel : ℕ) {num : ℤ} (nonneg : 0 ≤ num)
    (bound : num < 2 ^ 31) : Grows s (Full hash) (s.rehashInt hash w fuel num) := by
  apply grows_rehash small (fun s' same sized => grows_grow fuel s' (by rwa [same]) sized) full.sized (by omega)
  refine ⟨fun none => ?_, fun _ => full⟩
  have counted := full.counted
  rw [Finset.card_range] at counted
  exact List.eq_nil_of_length_eq_zero (by omega)

end calls

section runs

variable {w : ℕ} {keys : List K}

/-- An indexer, and the keys in the order in which they were first added. -/
abbrev State (K : Type) := IdIndexer K × List K

/-- A call of `add` or `_rehash` that returns. There is an index for another key, and the size is not negative. -/
inductive Step (hash : Hashing K) (w : ℕ) : State K → State K → Prop
  | add {s s' : IdIndexer K} {keys : List K} {fuel lid : ℕ} {new : Bool} {oid : K} (small : keys.length + 1 < 2 ^ w)
      (ran : s.add hash w fuel oid = .ok (new, lid, s')) : Step hash w (s, keys) (s', addKey keys oid)
  | rehash {s s' : IdIndexer K} {keys : List K} {fuel : ℕ} {num : ℤ} (small : keys.length < 2 ^ w) (nonneg : 0 ≤ num)
      (bound : num < 2 ^ 31) (ran : s.rehashInt hash w fuel num = .ok s') : Step hash w (s, keys) (s', keys)

/-- The runs from an empty indexer. -/
abbrev Run (hash : Hashing K) (w : ℕ) (state : State K) : Prop :=
  Reach (· = ((resetToEmptyState : IdIndexer K), [])) (Step hash w) state

theorem Run.full {state : State K} (run : Run hash w state) :
    Full hash state.1 ∧ state.1.keys = state.2 ∧ state.2.Nodup ∧ state.2.length < 2 ^ w := by
  induction run with
  | init start =>
    subst start
    exact ⟨full_reset, rfl, List.nodup_nil, Nat.two_pow_pos w⟩
  | step _ move ih =>
    obtain ⟨full, same, distinct, fits⟩ := ih
    cases move with
    | @add s s' keys fuel lid new oid small ran =>
      obtain rfl : s.keys = keys := same
      have ends := full.add distinct small fuel oid
      rw [ran] at ends
      obtain ⟨_, _, same', full'⟩ := ends
      refine ⟨full', same', ?_⟩
      dsimp only
      rw [addKey]
      split_ifs with member
      · exact ⟨distinct, fits⟩
      · exact ⟨distinct.append (List.nodup_singleton oid) (by simpa using member), by simpa using small⟩
    | @rehash s s' keys fuel num small nonneg bound ran =>
      obtain rfl : s.keys = keys := same
      have ends := full.rehashInt small fuel nonneg bound
      rw [ran] at ends
      exact ⟨ends.2, ends.1, distinct, fits⟩

/-- In every run the indexer answers as the list of its keys does, in the order in which they were first added; no call
leaves its vectors, and an `add` that returns reports the place of its key and whether the key is new. -/
theorem id_indexer_refines (run : Run hash w (s, keys)) : s.numElements = keys.length ∧
    (∀ oid, s.getIndex hash oid = .ok (if oid ∈ keys then some (keys.idxOf oid) else none)) ∧
    (∀ lid, s.getKey lid = keys[lid]?) ∧
    (∀ fuel oid, keys.length + 1 < 2 ^ w → Ends Exhausted
      (fun r => r.1 = decide (oid ∉ keys) ∧ r.2.1 = keys.idxOf oid) (s.add hash w fuel oid)) ∧
    ∀ fuel num, 0 ≤ num → num < 2 ^ 31 → Ends Exhausted (fun s' => s'.keys = keys) (s.rehashInt hash w fuel num) := by
  obtain ⟨full, same, distinct, fits⟩ := run.full
  dsimp only at full same distinct
  subst same
  refine ⟨by rw [full.counted, Finset.card_range], full.getIndex distinct, full.getKey, fun fuel oid small => ?_,
    fun fuel num nonneg bound => ?_⟩
  · exact (full.add distinct small fuel oid).mono fun r ⟨new, lid, _, _⟩ => ⟨new, lid⟩
  · exact (full.rehashInt fits fuel nonneg bound).mono fun s' ⟨kept, _⟩ => kept

/-- Moduli of any size, and keys that are their own hash values. -/
def plain : Hashing ℕ where
  hasher := id
  nextSizeOver := Nat.succ
  indexForHash := fun size hash => if size = 0 then 0 else hash % size
  le_nextSizeOver := Nat.le_succ
  nextSizeOver_lt := by
    intro n small
    omega
  indexForHash_reset := fun _ => rfl
  indexForHash_lt := by
    intro size hash positive
    rw [if_neg positive.ne']
    exact Nat.mod_lt hash positive

/-- Two keys with one home. -/
theorem id_indexer_refines_twoKeys : ∃ s : IdIndexer ℕ, s.indices 4 = 1 ∧ s.distances 4 = 1 ∧ s.numElements = 2 ∧
    s.getIndex plain 8 = .ok (some 1) ∧ s.getIndex plain 13 = .ok none ∧ s.getKey 1 = some 8 := by
  have start : Run plain 32 ((resetToEmptyState : IdIndexer ℕ), []) := .init rfl
  have first := start.step (@Step.add _ _ plain 32 _ _ [] 1 0 true 3 (by decide) rfl)
  have second := first.step (@Step.add _ _ plain 32 _ _ [3] 1 1 true 8 (by decide) rfl)
  obtain ⟨size, getIndex, getKey, _⟩ := id_indexer_refines second
  exact ⟨_, rfl, rfl, size, getIndex 8, getIndex 13, getKey 1⟩

end runs

end Gbp.IdIndexer
