import GraphBufferPool.Lib.CountedSlots
import GraphBufferPool.Pool.PageTable

/-! # `DirectCacheImpl2`

A cache of page-table entries in front of the page table: each filled slot holds one reference to its
entry, and a ring of slot indices, read by a cursor with a second chance for marked slots, names the slot
to give up. The cursor moves by a bit mask that leaves it where it is, so that one ring position
is ever used.
-/

namespace Gbp

/-- `CACHE_INDEX_MASK`, which is also the size of `eviction_structure_`. -/
abbrev cacheIndexMask : ℕ := 256 * 4

/-- `INVALID_CACHE_INDEX`. -/
abbrev invalidCacheIndex : ℕ := 2 ^ 16 - 1

/-- `DirectCacheImpl2::Node`; `pte_cur` is the frame of its entry. -/
structure CacheNode where
  countCur : ℕ
  countGlobal : Bool
  pteCur : Option ℕ
deriving DecidableEq, Repr

/-- `DirectCacheImpl2`. -/
structure DirectCacheImpl2 where
  capacity : ℕ
  cache : ℕ → CacheNode
  evictionStructure : ℕ → ℕ
  pointer : ℕ

namespace DirectCacheImpl2

open Function

/-- The constructor. -/
def new (capacity : ℕ) : DirectCacheImpl2 := ⟨capacity, fun _ => ⟨0, false, none⟩, fun _ => invalidCacheIndex, 0⟩

/-- `DirectCache_HASH_FUNC`, in the 32-bit arithmetic of `fpage_id_type`. -/
def index (c : DirectCacheImpl2) (page : Page) : ℕ := (page.fd * 2 ^ 4 + page.fpageId) % 2 ^ 32 % c.capacity

/-- What a call returned, the entries it called `DecRefCount` on, and the ring position it stored to. -/
structure Effect where
  result : Bool
  released : List ℕ
  position : Option ℕ

/-- `pointer_tmp++; pointer_tmp & CACHE_INDEX_MASK`, on a `uint16_t`. -/
def advance (pointer : ℕ) : ℕ := (pointer + 1) % 2 ^ 16 &&& cacheIndexMask

/-- The loop of `Insert` over the ring: the position it stops at, or none where it is back at `pointer_`. -/
def searchRing (ring : ℕ → ℕ) (pointer : ℕ) :
    ℕ → (ℕ → CacheNode) → ℕ → Except Stop (Option ℕ × (ℕ → CacheNode))
  | 0, _, _ => .error .outOfFuel
  | fuel + 1, cache, pointerTmp =>
    let slot := ring pointerTmp
    if slot ≠ invalidCacheIndex ∧ (cache slot).countGlobal = true then
      let cache := if (cache slot).countCur = 0 then update cache slot { cache slot with countGlobal := false } else cache
      if advance pointerTmp = pointer then .ok (none, cache)
      else searchRing ring pointer fuel cache (advance pointerTmp)
    else .ok (some pointerTmp, cache)

/-- The stores at the end of `Insert`. -/
def fill (c : DirectCacheImpl2) (slot pte : ℕ) : DirectCacheImpl2 :=
  { c with cache := update c.cache slot ⟨1, true, some pte⟩ }

/-- `Insert`; the entry of a slot without counted uses is replaced, and an empty slot needs a ring position. -/
def insert (fuel : ℕ) (c : DirectCacheImpl2) (page : Page) (pte : ℕ) : Except Stop (Effect × DirectCacheImpl2) :=
  let slot := c.index page
  match (c.cache slot).pteCur with
  | some old =>
    if (c.cache slot).countCur = 0 then .ok (⟨true, [old], none⟩, c.fill slot pte)
    else .ok (⟨false, [], none⟩, c)
  | none => do
    let (found, cache) ← searchRing c.evictionStructure c.pointer fuel c.cache c.pointer
    match found with
    | none => return (⟨false, [], none⟩, { c with cache := cache })
    | some position =>
      let victim := c.evictionStructure position
      let old := if victim = invalidCacheIndex then none else (cache victim).pteCur
      let cache := if old = none then cache else update cache victim { cache victim with pteCur := none }
      let c := { c with
        cache := cache
        evictionStructure := update c.evictionStructure position (slot % 2 ^ 16)
        pointer := advance position }
      return (⟨true, old.toList, some position⟩, c.fill slot pte)

/-- `Find`, with the page that each entry describes at the time of the call. -/
def find (c : DirectCacheImpl2) (pages : ℕ → Page) (page : Page) : Effect × DirectCacheImpl2 :=
  let slot := c.index page
  match (c.cache slot).pteCur with
  | some pte =>
    if pages pte = page then
      (⟨true, [], none⟩, { c with
        cache := update c.cache slot { c.cache slot with
          countCur := ((c.cache slot).countCur + 1) % 2 ^ 16
          countGlobal := true } })
    else (⟨false, [], none⟩, c)
  | none => (⟨false, [], none⟩, c)

/-- `Erase`. -/
def erase (c : DirectCacheImpl2) (page : Page) : Effect × DirectCacheImpl2 :=
  let slot := c.index page
  match (c.cache slot).pteCur with
  | some _ =>
    (⟨true, [], none⟩, { c with
      cache := update c.cache slot { c.cache slot with countCur := ((c.cache slot).countCur + (2 ^ 16 - 1)) % 2 ^ 16 } })
  | none => (⟨false, [], none⟩, c)

/-- The calls of a run. -/
inductive Call
  | insert (page : Page) (pte : ℕ)
  | find (pages : ℕ → Page) (page : Page)
  | erase (page : Page)

/-- A call; the loop of `Insert` gets one round more than the ring has positions. -/
def call (c : DirectCacheImpl2) : Call → Except Stop (Effect × DirectCacheImpl2)
  | .insert page pte => c.insert (cacheIndexMask + 1) page pte
  | .find pages page => .ok (c.find pages page)
  | .erase page => .ok (c.erase page)

/-- The entry that a successful call puts into the cache. -/
def Call.inserted (call : Call) (result : Bool) : Multiset ℕ :=
  match call with
  | .insert _ pte => if result then {pte} else 0
  | .find _ _ | .erase _ => 0

/-- The entries of the slots. -/
def holder (c : DirectCacheImpl2) (slot : ℕ) : Option ℕ := (c.cache slot).pteCur

/-- The references that the slots hold. -/
def held (c : DirectCacheImpl2) : Multiset ℕ := CountedSlots.held (Finset.range c.capacity) c.holder

/-- What a call does with the ring and with the references, where `written` are the positions used before. -/
structure Meets (c : DirectCacheImpl2) (written : List ℕ) (call : Call) (effect : Effect) (c' : DirectCacheImpl2) :
    Prop where
  cursor : c'.pointer < cacheIndexMask
  fresh : ∀ position ∈ effect.position, position ∈ written → ∀ other < cacheIndexMask, other ∈ written
  fits : ∀ page pte, call = .insert page pte → c.holder (c.index page) = none →
    (∃ unused < cacheIndexMask, unused ∉ written) →
      effect.result = true ∧ ∀ slot ≠ c.index page, c'.holder slot = c.holder slot
  kept : ∀ slot pte, c.holder slot = some pte → 0 < (c.cache slot).countCur → c'.holder slot = some pte
  released : c'.held + (effect.released : Multiset ℕ) = c.held + call.inserted effect.result

/-- Every call of the run returns and does that. -/
def UsesRing : DirectCacheImpl2 → List ℕ → List Call → Prop
  | _, _, [] => True
  | c, written, call :: rest => ∃ effect c', c.call call = .ok (effect, c') ∧ c.Meets written call effect c' ∧
      UsesRing c' (written ++ effect.position.toList) rest

/-- Every `Erase` of the run ends a use that a successful `Insert` or `Find` began. -/
def Balances : DirectCacheImpl2 → Multiset Page → List Call → Prop
  | _, _, [] => True
  | c, uses, call :: rest => ∀ effect c', c.call call = .ok (effect, c') →
    match call with
    | .insert page _ | .find _ page => Balances c' (if effect.result then page ::ₘ uses else uses) rest
    | .erase page => page ∈ uses ∧ Balances c' (uses.erase page) rest

/-- All `Insert`s of a run are of pages of one slot. -/
def OneSlot (c : DirectCacheImpl2) (calls : List Call) : Prop :=
  ∀ page pte page' pte', .insert page pte ∈ calls → .insert page' pte' ∈ calls → c.index page = c.index page'

variable {c c' : DirectCacheImpl2} {capacity slot pte : ℕ} {written : List ℕ} {page : Page} {calls : List Call}

/-- `1 & CACHE_INDEX_MASK`: the cursor is back where it was. -/
theorem advance_zero : advance 0 = 0 := by decide

/-- The loop of `Insert` never goes past the first position. -/
theorem searchRing_zero (ring : ℕ → ℕ) (fuel : ℕ) (cache : ℕ → CacheNode) :
    searchRing ring 0 (fuel + 1) cache 0 =
      if ring 0 ≠ invalidCacheIndex ∧ (cache (ring 0)).countGlobal = true then
        .ok (none, if (cache (ring 0)).countCur = 0 then
          update cache (ring 0) { cache (ring 0) with countGlobal := false } else cache)
      else .ok (some 0, cache) := by
  rw [searchRing]
  dsimp only
  rw [advance_zero, if_pos rfl]

/-- An `Insert` into an empty slot fails, or takes the first position. -/
theorem insert_empty (empty : (c.cache (c.index page)).pteCur = none) (pointer : c.pointer = 0) {fuel : ℕ}
    {effect : Effect} (ran : c.insert (fuel + 1) page pte = .ok (effect, c')) :
    effect.result = false ∨ effect.position = some 0 := by
  unfold insert at ran
  dsimp only at ran
  rw [empty] at ran
  dsimp only at ran
  rw [pointer, searchRing_zero] at ran
  by_cases marked : c.evictionStructure 0 ≠ invalidCacheIndex ∧
      (c.cache (c.evictionStructure 0)).countGlobal = true
  · rw [if_pos marked, ok_bind] at ran
    cases ran
    exact Or.inl rfl
  · rw [if_neg marked, ok_bind] at ran
    cases ran
    exact Or.inr rfl

theorem index_lt (positive : 0 < c.capacity) (page : Page) : c.index page < c.capacity := Nat.mod_lt _ positive

theorem fill_holder (c : DirectCacheImpl2) (slot pte other : ℕ) :
    (c.fill slot pte).holder other = if other = slot then some pte else c.holder other := by
  by_cases same : other = slot
  · simp [holder, fill, same]
  · simp [holder, fill, same]

/-- Filling a slot exchanges its reference for another. -/
theorem fill_held (inside : slot < c.capacity) (pte : ℕ) :
    (c.fill slot pte).held + CountedSlots.reference (c.holder slot) = c.held + {pte} := by
  have changed := @CountedSlots.held_replace _ _ _ (Finset.range c.capacity) c.holder (c.fill slot pte).holder slot
    (Finset.mem_range.mpr inside) fun other apart => by rw [fill_holder, if_neg apart]
  rw [fill_holder, if_pos rfl] at changed
  exact changed

/-- The cache with another node of a slot that holds the same entry. -/
def recount (c : DirectCacheImpl2) (slot n : ℕ) (mark : Bool) : DirectCacheImpl2 :=
  { c with cache := update c.cache slot ⟨n, mark, (c.cache slot).pteCur⟩ }

theorem recount_holder (c : DirectCacheImpl2) (slot n : ℕ) (mark : Bool) : (c.recount slot n mark).holder = c.holder := by
  funext other
  by_cases same : other = slot
  · simp [holder, recount, same]
  · simp [holder, recount, same]

/-- What a `Find` does: nothing, or it counts a use of the slot and marks it. -/
theorem find_cases (c : DirectCacheImpl2) (pages : ℕ → Page) (page : Page) :
    c.find pages page = (⟨false, [], none⟩, c) ∨ (∃ pte, (c.cache (c.index page)).pteCur = some pte) ∧
      c.find pages page = (⟨true, [], none⟩,
        c.recount (c.index page) (((c.cache (c.index page)).countCur + 1) % 2 ^ 16) true) := by
  unfold find
  dsimp only
  cases here : (c.cache (c.index page)).pteCur with
  | none => exact Or.inl rfl
  | some pte =>
    dsimp only
    split_ifs with named
    · exact Or.inr ⟨⟨pte, rfl⟩, by rw [recount, here]⟩
    · exact Or.inl rfl

/-- What an `Erase` does: nothing, or it takes one use off the slot. -/
theorem erase_cases (c : DirectCacheImpl2) (page : Page) :
    c.erase page = (⟨false, [], none⟩, c) ∨ (∃ pte, (c.cache (c.index page)).pteCur = some pte) ∧
      c.erase page = (⟨true, [], none⟩, c.recount (c.index page)
        (((c.cache (c.index page)).countCur + (2 ^ 16 - 1)) % 2 ^ 16) (c.cache (c.index page)).countGlobal) := by
  unfold erase
  dsimp only
  cases here : (c.cache (c.index page)).pteCur with
  | none => exact Or.inl rfl
  | some pte => exact Or.inr ⟨⟨pte, rfl⟩, by rw [recount, here]⟩

/-- A call that is no `Insert` and leaves the slots their entries. -/
theorem Meets.of_holder {call : Call} {result : Bool} (cursor : c'.pointer < cacheIndexMask)
    (inserts : ∀ page pte, call ≠ .insert page pte) (capacity : c'.capacity = c.capacity) (same : c'.holder = c.holder) :
    c.Meets written call ⟨result, [], none⟩ c' := by
  refine ⟨cursor, by simp, fun page pte is => absurd is (inserts page pte), fun slot pte here _ => ?_, ?_⟩
  · rw [same, here]
  · have none : call.inserted result = 0 := by
      cases call with
      | insert page pte => exact absurd rfl (inserts page pte)
      | find => rfl
      | erase => rfl
    rw [none, held, held, capacity, same]
    rfl

/-- The state in which one slot is filled, with its index in the first ring position. -/
structure OneFilled (capacity slot : ℕ) (c : DirectCacheImpl2) : Prop where
  bound : c.capacity = capacity
  inside : slot < capacity
  pointer : c.pointer = 0
  ring : c.evictionStructure 0 = slot % 2 ^ 16
  marked : (c.cache slot).countGlobal = true
  filled : ∃ pte, (c.cache slot).pteCur = some pte
  others : ∀ other ≠ slot, c.cache other = ⟨0, false, none⟩

namespace OneFilled

theorem recount (one : OneFilled capacity slot c) (n : ℕ) : OneFilled capacity slot (c.recount slot n true) := by
  refine ⟨one.bound, one.inside, one.pointer, one.ring, ?_, ?_, fun other apart => ?_⟩
  · simp [DirectCacheImpl2.recount]
  · simpa [DirectCacheImpl2.recount] using one.filled
  · simpa [DirectCacheImpl2.recount, update_of_ne apart] using one.others other apart

/-- Only the filled slot answers. -/
theorem eq_of_filled (one : OneFilled capacity slot c) {other : ℕ} (filled : ∃ pte, (c.cache other).pteCur = some pte) :
    other = slot := by
  by_contra apart
  obtain ⟨pte, here⟩ := filled
  rw [one.others _ apart] at here
  cases here

/-- A `Find` or an `Erase` leaves the ring and the entries alone. -/
theorem other_calls (one : OneFilled capacity slot c) {call : Call} (inserts : ∀ page pte, call ≠ .insert page pte)
    (written : List ℕ) : ∃ effect c', c.call call = .ok (effect, c') ∧ c.Meets written call effect c' ∧
      effect.position = none ∧ OneFilled capacity slot c' := by
  have cursor : c.pointer < cacheIndexMask := by rw [one.pointer]; decide
  cases call with
  | insert page pte => exact absurd rfl (inserts page pte)
  | find pages page =>
    obtain done | ⟨filled, done⟩ := c.find_cases pages page
    · exact ⟨_, _, congrArg Except.ok done, .of_holder cursor inserts rfl rfl, rfl, one⟩
    · refine ⟨_, _, congrArg Except.ok done, .of_holder cursor inserts rfl (recount_holder ..), rfl, ?_⟩
      rw [one.eq_of_filled filled]
      exact one.recount _
  | erase page =>
    obtain done | ⟨filled, done⟩ := c.erase_cases page
    · exact ⟨_, _, congrArg Except.ok done, .of_holder cursor inserts rfl rfl, rfl, one⟩
    · refine ⟨_, _, congrArg Except.ok done, .of_holder cursor inserts rfl (recount_holder ..), rfl, ?_⟩
      rw [one.eq_of_filled filled, one.marked]
      exact one.recount _

/-- An `Insert` of a page of the filled slot needs no ring position. -/
theorem insert_same (one : OneFilled capacity slot c) (here : c.index page = slot) (written : List ℕ) (pte : ℕ) :
    ∃ effect c', c.call (.insert page pte) = .ok (effect, c') ∧ c.Meets written (.insert page pte) effect c' ∧
      effect.position = none ∧ OneFilled capacity slot c' := by
  obtain ⟨old, filled⟩ := one.filled
  have nonempty : c.holder slot ≠ none := by simp [holder, filled]
  have cursor : c.pointer < cacheIndexMask := by rw [one.pointer]; decide
  by_cases idle : (c.cache slot).countCur = 0
  · refine ⟨⟨true, [old], none⟩, c.fill slot pte, ?_, ⟨cursor, by simp, ?_, ?_, ?_⟩, rfl, ?_⟩
    · simp only [call, insert, here, filled, idle, if_true]
    · rintro page' pte' same empty
      cases same
      exact absurd empty (here ▸ nonempty)
    · intro other pte' holds counted
      have apart : other ≠ slot := by
        rintro rfl
        omega
      rw [fill_holder, if_neg apart, holds]
    · have exchanged := fill_held (one.bound.symm ▸ one.inside) pte
      rw [holder, filled] at exchanged
      exact exchanged
    · refine ⟨one.bound, one.inside, one.pointer, one.ring, ?_, ⟨pte, ?_⟩, fun other apart => ?_⟩
      · simp [fill]
      · simp [fill]
      · simpa [fill, update_of_ne apart] using one.others other apart
  · refine ⟨⟨false, [], none⟩, c, ?_, ⟨cursor, by simp, ?_, fun _ _ holds _ => holds, ?_⟩, rfl, one⟩
    · simp only [call, insert, here, filled, idle, if_false]
    · rintro page' pte' same empty
      cases same
      exact absurd empty (here ▸ nonempty)
    · rfl

/-- An `Insert` of a page of any other slot fails, or uses the first ring position again. -/
theorem insert_other (one : OneFilled capacity slot c) (apart : c.index page ≠ slot) (pte : ℕ) {effect : Effect}
    (ran : c.call (.insert page pte) = .ok (effect, c')) : ¬ c.Meets [0] (.insert page pte) effect c' := by
  intro meets
  have empty : (c.cache (c.index page)).pteCur = none := by rw [one.others _ apart]
  have unused : ∃ other < cacheIndexMask, other ∉ [0] := ⟨1, by decide, by decide⟩
  obtain ⟨placed, -⟩ := meets.fits page pte rfl empty unused
  rcases insert_empty empty one.pointer ran with failed | position
  · rw [failed] at placed
    cases placed
  · exact absurd (meets.fresh 0 position (List.mem_singleton_self 0) 1 (by decide)) (by decide)

end OneFilled

/-- The first `Insert` takes the first ring position. -/
theorem insert_new (positive : 0 < capacity) (page : Page) (pte : ℕ) :
    ∃ effect c', (new capacity).call (.insert page pte) = .ok (effect, c') ∧
      (new capacity).Meets [] (.insert page pte) effect c' ∧ effect.position = some 0 ∧
        OneFilled capacity ((new capacity).index page) c' := by
  set slot := (new capacity).index page
  have inside : slot < capacity := @index_lt (new capacity) positive page
  set c : DirectCacheImpl2 := { new capacity with evictionStructure := update (fun _ => invalidCacheIndex) 0 (slot % 2 ^ 16) }
  have ran : (new capacity).call (.insert page pte) = .ok (⟨true, [], some 0⟩, c.fill slot pte) := by
    have search : searchRing (new capacity).evictionStructure 0 (cacheIndexMask + 1) (new capacity).cache 0 =
        .ok (some 0, (new capacity).cache) := by
      rw [searchRing_zero]
      exact if_neg fun busy => busy.1 rfl
    unfold call insert
    dsimp only
    rw [show ((new capacity).cache ((new capacity).index page)).pteCur = none from rfl]
    dsimp only
    rw [show (new capacity).pointer = 0 from rfl, search]
    rfl
  refine ⟨⟨true, [], some 0⟩, c.fill slot pte, ran, ⟨Nat.zero_lt_succ _, by simp, ?_, ?_, ?_⟩, rfl, ?_⟩
  · rintro page' pte' same - -
    cases same
    refine ⟨rfl, fun other apart => ?_⟩
    rw [fill_holder, if_neg apart]
    rfl
  · intro other pte' holds
    cases holds
  · exact @fill_held c slot inside pte
  · refine ⟨rfl, inside, rfl, ?_, ?_, ⟨pte, ?_⟩, fun other apart => ?_⟩
    · simp [fill, c]
    · simp [fill]
    · simp [fill]
    · simp [fill, apart, c, new]

/-- With one slot filled, a run uses the ring as it should as long as it inserts into this slot only. -/
theorem OneFilled.usesRing_iff (one : OneFilled capacity slot c) : c.UsesRing [0] calls ↔
    ∀ page pte, .insert page pte ∈ calls → c.index page = slot := by
  induction calls generalizing c with
  | nil => simp [UsesRing]
  | cons call rest ih =>
    -- A call that keeps one slot filled leaves the condition to the rest.
    have goes {effect : Effect} {c' : DirectCacheImpl2} (ran : c.call call = .ok (effect, c'))
        (meets : c.Meets [0] call effect c') (position : effect.position = none) (next : OneFilled capacity slot c') :
        c.UsesRing [0] (call :: rest) ↔ ∀ page pte, .insert page pte ∈ rest → c.index page = slot := by
      have same (page : Page) : c'.index page = c.index page := by rw [index, index, next.bound, one.bound]
      have later := ih next
      simp only [same] at later
      rw [← later]
      constructor
      · rintro ⟨effect', c'', ran', -, uses⟩
        cases ran.symm.trans ran'
        rwa [position] at uses
      · intro uses
        exact ⟨effect, c', ran, meets, by rwa [position]⟩
    by_cases inserts : ∃ page pte, call = .insert page pte
    · obtain ⟨page, pte, rfl⟩ := inserts
      by_cases here : c.index page = slot
      · obtain ⟨effect, c', ran, meets, position, next⟩ := one.insert_same here [0] pte
        rw [goes ran meets position next]
        constructor
        · intro all page' pte' member
          rcases List.mem_cons.mp member with same | member
          · cases same
            exact here
          · exact all page' pte' member
        · exact fun all page' pte' member => all page' pte' (List.mem_cons_of_mem _ member)
      · constructor
        · rintro ⟨effect, c', ran, meets, -⟩
          exact absurd meets (one.insert_other here pte ran)
        · exact fun all => absurd (all page pte (List.mem_cons_self ..)) here
    · have none : ∀ page pte, call ≠ .insert page pte := fun page pte same => inserts ⟨page, pte, same⟩
      obtain ⟨effect, c', ran, meets, position, next⟩ := one.other_calls none [0]
      rw [goes ran meets position next]
      constructor
      · intro all page pte member
        rcases List.mem_cons.mp member with same | member
        · exact absurd same.symm (none page pte)
        · exact all page pte member
      · exact fun all page pte member => all page pte (List.mem_cons_of_mem _ member)

/-- A `Find` or an `Erase` does nothing to a new cache. -/
theorem other_calls_new (capacity : ℕ) {call : Call} (inserts : ∀ page pte, call ≠ .insert page pte) :
    (new capacity).call call = .ok (⟨false, [], none⟩, new capacity) := by
  cases call with
  | insert page pte => exact absurd rfl (inserts page pte)
  | find pages page => rfl
  | erase page => rfl

/-- A run uses the whole ring if and only if its `Insert`s are all of pages of one slot: the second slot
either fails to enter the cache or takes the first ring position again. -/
theorem uses_ring_iff (positive : 0 < capacity) (calls : List Call) :
    (new capacity).UsesRing [] calls ↔ OneSlot (new capacity) calls := by
  induction calls with
  | nil =>
    refine ⟨fun _ page pte page' pte' member => ?_, fun _ => trivial⟩
    cases member
  | cons call rest ih =>
    by_cases inserts : ∃ page pte, call = .insert page pte
    · obtain ⟨page, pte, rfl⟩ := inserts
      obtain ⟨effect, c', ran, meets, position, next⟩ := insert_new positive page pte
      have same (page : Page) : c'.index page = (new capacity).index page := by
        rw [index, index, next.bound]
        rfl
      have later := @OneFilled.usesRing_iff c' capacity _ rest next
      simp only [same] at later
      have first : (new capacity).UsesRing [] (.insert page pte :: rest) ↔ c'.UsesRing [0] rest := by
        constructor
        · rintro ⟨effect', c'', ran', -, uses⟩
          cases ran.symm.trans ran'
          rwa [position] at uses
        · intro uses
          exact ⟨effect, c', ran, meets, by rwa [position]⟩
      rw [first, later]
      constructor
      · intro all
        have slot (page' : Page) (pte' : ℕ) (member : .insert page' pte' ∈ Call.insert page pte :: rest) :
            (new capacity).index page' = (new capacity).index page := by
          rcases List.mem_cons.mp member with same | member
          · cases same
            rfl
          · exact all page' pte' member
        intro p m p' m' one other
        rw [slot p m one, slot p' m' other]
      · intro all page' pte' member
        exact all page' pte' page pte (List.mem_cons_of_mem _ member) (List.mem_cons_self ..)
    · have none : ∀ page pte, call ≠ .insert page pte := fun page pte same => inserts ⟨page, pte, same⟩
      have ran := other_calls_new capacity none
      have first : (new capacity).UsesRing [] (call :: rest) ↔ (new capacity).UsesRing [] rest := by
        constructor
        · rintro ⟨effect', c'', ran', -, uses⟩
          cases ran.symm.trans ran'
          exact uses
        · intro uses
          exact ⟨_, _, ran, .of_holder (Nat.zero_lt_succ _) none rfl rfl, uses⟩
      rw [first, ih]
      constructor
      · intro all p m p' m' one other
        refine all p m p' m' ((List.mem_cons.mp one).resolve_left fun same => none p m same.symm)
          ((List.mem_cons.mp other).resolve_left fun same => none p' m' same.symm)
      · exact fun all p m p' m' one other => all p m p' m' (List.mem_cons_of_mem _ one) (List.mem_cons_of_mem _ other)

/-- A page that is inserted, given back and inserted again. -/
theorem uses_ring_iff_onePage : (new 2048).UsesRing [] [.insert ⟨0, 3⟩ 0, .erase ⟨0, 3⟩, .insert ⟨0, 3⟩ 1] ↔
    OneSlot (new 2048) [.insert ⟨0, 3⟩ 0, .erase ⟨0, 3⟩, .insert ⟨0, 3⟩ 1] :=
  uses_ring_iff (by decide) _

/-- The second page does not enter, with one of 1024 ring positions used. -/
theorem second_slot_fails : ¬ ∀ calls, Balances (new 2048) 0 calls → (new 2048).UsesRing [] calls := by
  intro always
  have balanced : Balances (new 2048) 0 [.insert ⟨0, 0⟩ 0, .erase ⟨0, 0⟩, .insert ⟨0, 1⟩ 1] := by
    intro effect c' ran
    cases ran
    refine fun effect c' ran => ⟨by simp, fun effect c' ran => ?_⟩
    split <;> trivial
  have slots := (uses_ring_iff (by decide) _).mp (always _ balanced)
  have same := slots ⟨0, 0⟩ 0 ⟨0, 1⟩ 1 (by simp) (by simp)
  exact absurd same (by decide)

end DirectCacheImpl2

end Gbp
