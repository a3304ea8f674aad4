import GraphBufferPool.Replacer.Policy

/-! # The CLOCK replacers

`ClockReplacer` counts the hits of each node up to a cap; its `Insert` leaves the count of a new node
uninitialized, and its `Promote` fails at the cap. `ClockReplacer_v2` has two flags per frame. The
loops of both `Victim`s need not end and take a fuel, the number of nodes they look at.
-/

namespace Gbp

/-- `ClockReplacer`: the nodes between `head_` and `tail_`, their field `freq` and the frames in `map_`. What
the coming allocations find in the field `freq` is `fresh`. -/
structure ClockReplacer where
  nodes : List ℕ
  freq : ℕ → ℕ
  map : Finset ℕ
  fresh : ℕ → Fin (2 ^ 32)

namespace ClockReplacer

/-- `MAX_FREQ`. -/
abbrev maxFreq : ℕ := 100

/-- The constructor, in a heap with these contents. -/
def new (fresh : ℕ → Fin (2 ^ 32)) : ClockReplacer := ⟨[], fun _ => 0, ∅, fresh⟩

/-- `Insert`: the constructor of `ListNode` sets only `val`. -/
def insert (r : ClockReplacer) (value : ℕ) : Bool × ClockReplacer :=
  if value ∈ r.map then (false, r)
  else (true, {
    nodes := value :: r.nodes
    freq := Function.update r.freq value (r.fresh 0)
    map := Insert.insert value r.map
    fresh := fun n => r.fresh (n + 1) })

/-- `Promote`. -/
def promote (r : ClockReplacer) (value : ℕ) : Bool × ClockReplacer :=
  if value ∈ r.map then
    if r.freq value < maxFreq then
      (true, { r with freq := Function.update r.freq value (r.freq value + 1) })
    else (false, r)
  else (false, r)

/-- The loops of `Victim` from the node `toEvict`; before the first node is the sentinel `head_`, which
has no frame. -/
def victimLoop : ℕ → PageTable → ClockReplacer → Option ℕ →
    Except Stop (ℕ × ClockReplacer × PageTable)
  | _, _, _, none => .error .nullNode
  | 0, _, _, some _ => .error .outOfFuel
  | fuel + 1, pt, r, some i =>
    if 1 ≤ r.freq i then
      let lowered := { r with
        freq := Function.update r.freq i (r.freq i - 1)
        nodes := i :: r.nodes.erase i }
      victimLoop fuel pt lowered lowered.nodes.getLast?
    else do
      let (taken, table) ← pt.lockVictim i
      if taken then return (i, r, table)
      else victimLoop fuel table r (prevNode none r.nodes i)

/-- `Victim`. -/
def victim (fuel : ℕ) (r : ClockReplacer) (pt : PageTable) :
    Except Stop (Option ℕ × ClockReplacer × PageTable) := do
  if r.nodes = [] then return (none, r, pt)
  else
    let (i, r, table) ← victimLoop fuel pt r r.nodes.getLast?
    return (some i, { r with nodes := r.nodes.erase i, map := r.map.erase i }, table)

instance : Policy ClockReplacer where
  Constructed _ r := ∃ fresh, r = new fresh
  insert r m := .ok (r.insert m)
  promote r m := .ok (r.promote m)
  victim := victim

/-- The loops of `Victim` leave the map alone. -/
theorem victimLoop_map {fuel : ℕ} {pt : PageTable} {r : ClockReplacer} {start : Option ℕ}
    {result : ℕ × ClockReplacer × PageTable} (ran : victimLoop fuel pt r start = .ok result) :
    result.2.1.map = r.map := by
  induction fuel generalizing pt r start with
  | zero => cases start <;> cases ran
  | succ fuel ih =>
    cases start with
    | none => cases ran
    | some i =>
      rw [victimLoop] at ran
      split_ifs at ran with marked
      · have kept := ih ran
        exact kept
      · obtain ⟨⟨taken, table⟩, _, ran⟩ := bind_eq_ok.mp ran
        cases taken with
        | true =>
          cases ran
          rfl
        | false => exact ih ran

theorem keeps : Keeps ClockReplacer (fun _ => True) fun r m => m ∈ r.map where
  constructed _ _ _ := trivial
  insert r r' m inserted _ ran := by
    have result : r.insert m = (inserted, r') := Except.ok.inj ran
    unfold insert at result
    split_ifs at result with known
    · cases result
      exact ⟨trivial, known, fun _ member => member⟩
    · cases result
      exact ⟨trivial, Finset.mem_insert_self .., fun _ member => Finset.mem_insert_of_mem member⟩
  promote r r' m promoted _ ran := by
    have result : r.promote m = (promoted, r') := Except.ok.inj ran
    unfold promote at result
    split_ifs at result <;> cases result <;> exact ⟨trivial, fun _ member => member⟩
  victim fuel r r' pt pt' taken _ ran := by
    refine ⟨trivial, fun k member other => ?_⟩
    have ran : victim fuel r pt = .ok (taken, r', pt') := ran
    unfold victim at ran
    split_ifs at ran with empty
    · cases ran
      exact member
    · obtain ⟨⟨i, after, table⟩, swept, ran⟩ := bind_eq_ok.mp ran
      have map : after.map = r.map := victimLoop_map swept
      cases ran
      exact Finset.mem_erase.mpr ⟨by simpa [eq_comm] using other, map.symm ▸ member⟩

/-- `Promote` of a tracked frame succeeds while its count is below the cap. -/
theorem promotes : PromotesWhen ClockReplacer fun r m => r.freq m < maxFreq := by
  apply keeps.promotesWhen
  intro r m _ known
  have promoted : Policy.promote r m = .ok (r.promote m) := rfl
  rw [promoted, promote, if_pos known]
  split_ifs with below
  · exact iff_of_true ⟨_, rfl⟩ below
  · refine iff_of_false ?_ below
    rintro ⟨r', same⟩
    cases same

end ClockReplacer

/-- `ClockReplacer_v2`: the flags of `cache_` and the hand. -/
structure ClockReplacer_v2 where
  capacity : ℕ
  evictable : ℕ → Bool
  visited : ℕ → Bool
  hand : ℕ

namespace ClockReplacer_v2

/-- The constructor. -/
def new (capacity : ℕ) : ClockReplacer_v2 := ⟨capacity, fun _ => false, fun _ => false, 0⟩

/-- `Insert`; past the end of `cache_` there is no node. -/
def insert (r : ClockReplacer_v2) (value : ℕ) : Except Stop (Bool × ClockReplacer_v2) :=
  if r.capacity ≤ value then .error .badIndex
  else .ok (true, { r with
    evictable := Function.update r.evictable value true
    visited := Function.update r.visited value false })

/-- `Promote`. -/
def promote (r : ClockReplacer_v2) (value : ℕ) : Except Stop (Bool × ClockReplacer_v2) :=
  if r.capacity ≤ value then .error .badIndex
  else .ok (true, { r with visited := Function.update r.visited value true })

/-- The loops of `Victim` from frame `toEvict`. -/
def victimLoop : ℕ → PageTable → ClockReplacer_v2 → ℕ →
    Except Stop (ℕ × ClockReplacer_v2 × PageTable)
  | 0, _, _, _ => .error .outOfFuel
  | fuel + 1, pt, r, i =>
    if r.capacity ≤ i then .error .badIndex
    else if r.evictable i = false ∨ r.visited i = true then
      victimLoop fuel pt { r with visited := Function.update r.visited i false } ((i + 1) % r.capacity)
    else if (pt.ptes i).refCount ≠ 0 then victimLoop fuel pt r ((i + 1) % r.capacity)
    else do
      let (taken, table) ← pt.lockVictim i
      if taken then return (i, r, table)
      else victimLoop fuel table r ((i + 1) % r.capacity)

/-- `Victim`. -/
def victim (fuel : ℕ) (r : ClockReplacer_v2) (pt : PageTable) :
    Except Stop (Option ℕ × ClockReplacer_v2 × PageTable) := do
  let (i, r, table) ← victimLoop fuel pt r (r.hand % r.capacity)
  return (some i, { r with
    hand := (i + 1) % r.capacity
    evictable := Function.update r.evictable i false }, table)

instance : Policy ClockReplacer_v2 where
  Constructed capacity r := r = new capacity
  insert := insert
  promote := promote
  victim := victim

/-- The loops of `Victim` only clear visits. -/
theorem victimLoop_flags {fuel i : ℕ} {pt : PageTable} {r : ClockReplacer_v2}
    {result : ℕ × ClockReplacer_v2 × PageTable} (ran : victimLoop fuel pt r i = .ok result) :
    result.2.1.capacity = r.capacity ∧ result.2.1.evictable = r.evictable := by
  induction fuel generalizing pt r i with
  | zero => cases ran
  | succ fuel ih =>
    rw [victimLoop] at ran
    split_ifs at ran with past skipped pinned
    · have kept := ih ran
      exact kept
    · exact ih ran
    · obtain ⟨⟨taken, table⟩, _, ran⟩ := bind_eq_ok.mp ran
      cases taken with
      | true =>
        cases ran
        exact ⟨rfl, rfl⟩
      | false => exact ih ran

theorem keeps : Keeps ClockReplacer_v2 (fun _ => True) fun r m => m < r.capacity where
  constructed _ _ _ := trivial
  insert r r' m inserted _ ran := by
    have ran : insert r m = .ok (inserted, r') := ran
    unfold insert at ran
    split_ifs at ran with past
    cases ran
    exact ⟨trivial, Nat.lt_of_not_le past, fun _ inside => inside⟩
  promote r r' m promoted _ ran := by
    have ran : promote r m = .ok (promoted, r') := ran
    unfold promote at ran
    split_ifs at ran with past
    cases ran
    exact ⟨trivial, fun _ inside => inside⟩
  victim fuel r r' pt pt' taken _ ran := by
    refine ⟨trivial, fun k inside _ => ?_⟩
    obtain ⟨⟨i, after, table⟩, swept, ran⟩ := bind_eq_ok.mp ran
    have capacity : after.capacity = r.capacity := (victimLoop_flags swept).1
    cases ran
    exact inside.trans_eq capacity.symm

theorem promotes : PromotesWhen ClockReplacer_v2 fun _ _ => True := by
  apply keeps.promotesWhen
  exact fun r m _ inside => iff_of_true ⟨_, if_neg (Nat.not_le.mpr inside)⟩ trivial

end ClockReplacer_v2

end Gbp
